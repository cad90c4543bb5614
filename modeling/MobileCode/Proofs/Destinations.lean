import Mathlib.Data.Nat.Find
import MobileCode.Proofs.Outcomes

/-! # Where calls go

A call goes to the endpoint that it names, else to the one among its arguments, else to the default. The one among the
arguments is that of the first parameter of the address type; if the first one is given something else than a text, those
behind it do not count.

A failover has a list of its own and does without the endpoint that was chosen. Still the choice is made first, and a call
for which there is none ends there. Wherever both of two calls have an endpoint, or neither has one, they do not differ in
anything else.
-/
namespace MobileCode

namespace Client
variable {ν : Type} {c : Client ν} {call : ServiceCall}

/-! ## The endpoint of a call -/

/-- The parameter at a position is of the address type, and its argument is a text. -/
def Addresses (c : Client ν) (call : ServiceCall) (i : Nat) (e : String) : Prop := ∃ type v,
  c.settings.addressType = some type ∧ call.method.paramTypes[i]? = some type ∧ call.args[i]? = some v ∧ v.asText? = some e

/-- The endpoint that a call is meant for: the one that it names, else the first text for a parameter of the address type,
else the default. -/
inductive Selects (c : Client ν) (call : ServiceCall) : String → Prop
  | explicit {e : String} : call.endpoint = some e → Selects c call e
  | addressed {i : Nat} {e : String} : call.endpoint = none → c.Addresses call i e →
    (∀ j < i, ∀ e', ¬c.Addresses call j e') → Selects c call e
  | default {e : String} : call.endpoint = none → (∀ i e', ¬c.Addresses call i e') →
    c.settings.defaultEndpoint = some e → Selects c call e

/-- No parameter of the address type that is given something else stands in front of one that is given a text. -/
def Unobstructed (c : Client ν) (call : ServiceCall) : Prop := ∀ i e, c.Addresses call i e → ∀ j < i,
  call.method.paramTypes[j]? = c.settings.addressType → ∃ e', c.Addresses call j e'

theorem Addresses.unique {i : Nat} {e e' : String} (h : c.Addresses call i e) (h' : c.Addresses call i e') : e' = e := by
  obtain ⟨_, v, _, _, hv, he⟩ := h
  obtain ⟨_, v', _, _, hv', he'⟩ := h'
  cases hv.symm.trans hv'
  exact Option.some.inj (he'.symm.trans he)

theorem Addresses.exists_first {i : Nat} {e : String} (h : c.Addresses call i e) :
    ∃ i e, c.Addresses call i e ∧ ∀ j < i, ∀ e', ¬c.Addresses call j e' := by
  classical
  have hsome : ∃ i e, c.Addresses call i e := ⟨i, e, h⟩
  obtain ⟨e, he⟩ := Nat.find_spec hsome
  exact ⟨_, e, he, fun j hj e' hj' => Nat.find_min hsome hj ⟨e', hj'⟩⟩

/-- What is found is the text for the first parameter of the address type that has an argument. -/
theorem addressed?_eq_some {e : String} : c.addressed? call = some e ↔
    ∃ i, c.Addresses call i e ∧ ∀ j < i, call.method.paramTypes[j]? ≠ c.settings.addressType := by
  cases haddress : c.settings.addressType with
  | none =>
    have hnone (i : Nat) (e : String) : ¬c.Addresses call i e := by
      rintro ⟨_, _, htype, _⟩
      cases haddress.symm.trans htype
    simp [addressed?, haddress, hnone]
  | some type =>
    simp only [addressed?, haddress, Option.bind_eq_bind, Option.bind_some, Option.bind_eq_some_iff,
      List.find?_eq_some_iff_getElem]
    constructor
    · rintro ⟨⟨t, v⟩, ⟨ht, i, hi, hat, hbefore⟩, he⟩
      obtain rfl : t = type := of_decide_eq_true ht
      obtain ⟨htypes, hargs⟩ := List.getElem?_zip_eq_some.mp (List.getElem?_eq_some_iff.mpr ⟨hi, hat⟩)
      refine ⟨i, ⟨t, v, haddress, htypes, hargs, he⟩, fun j hj htype => ?_⟩
      have hother := hbefore j hj
      rw [List.getElem_zip] at hother
      obtain ⟨hlt, hsame⟩ := List.getElem?_eq_some_iff.mp htype
      simp [hsame] at hother
    · rintro ⟨i, ⟨t, v, ht, htypes, hargs, he⟩, hbefore⟩
      obtain rfl : type = t := Option.some.inj (haddress.symm.trans ht)
      obtain ⟨hi, hat⟩ := List.getElem?_eq_some_iff.mp
        (List.getElem?_zip_eq_some (z := (type, v)).mpr ⟨htypes, hargs⟩)
      refine ⟨(type, v), ⟨decide_eq_true rfl, i, hi, hat, fun j hj => ?_⟩, he⟩
      have hj' : j < call.method.paramTypes.length := Nat.lt_trans hj (List.getElem?_eq_some_iff.mp htypes).1
      have hother := hbefore j hj
      rw [List.getElem?_eq_getElem hj'] at hother
      rw [List.getElem_zip]
      simpa using hother

/-- Without obstruction it is the first text for a parameter of the address type. -/
theorem Unobstructed.addressed?_eq_some (h : c.Unobstructed call) {e : String} : c.addressed? call = some e ↔
    ∃ i, c.Addresses call i e ∧ ∀ j < i, ∀ e', ¬c.Addresses call j e' := by
  rw [Client.addressed?_eq_some]
  refine exists_congr fun i => and_congr_right fun hi => forall₂_congr fun j hj => ?_
  constructor
  · rintro hother e' ⟨_, _, haddress, htype, _⟩
    exact hother (htype.trans haddress.symm)
  · intro hnone htype
    obtain ⟨e', he'⟩ := h i e hi j hj htype
    exact hnone e' he'

theorem Unobstructed.addressed?_eq_none (h : c.Unobstructed call) :
    c.addressed? call = none ↔ ∀ i e, ¬c.Addresses call i e := by
  constructor
  · intro hnone i e he
    obtain ⟨j, e', hfirst⟩ := he.exists_first
    cases hnone.symm.trans (h.addressed?_eq_some.mpr ⟨j, hfirst⟩)
  · intro hnone
    refine Option.eq_none_iff_forall_ne_some.mpr fun e he => ?_
    obtain ⟨i, hi, _⟩ := h.addressed?_eq_some.mp he
    exact hnone i e hi

/-- Of two parameters of the address type the first one decides, whatever it is given. -/
theorem addressed?_obstructed {j : Nat} {v : Value} (htype : call.method.paramTypes[j]? = c.settings.addressType)
    (hv : call.args[j]? = some v) (hother : v.asText? = none)
    (hfirst : ∀ i < j, call.method.paramTypes[i]? ≠ c.settings.addressType) : c.addressed? call = none := by
  refine Option.eq_none_iff_forall_ne_some.mpr fun e he => ?_
  obtain ⟨i, ⟨type, w, haddress, hi, hw, hwe⟩, hbefore⟩ := addressed?_eq_some.mp he
  rcases Nat.lt_trichotomy i j with hlt | rfl | hlt
  · exact hfirst i hlt (hi.trans haddress.symm)
  · cases hv.symm.trans hw
    cases hother.symm.trans hwe
  · exact hbefore j hlt htype

theorem endpoint_eq_ok {e : String} : c.endpoint call = .ok e ↔
    (call.endpoint <|> c.addressed? call <|> c.settings.defaultEndpoint) = some e := by
  unfold endpoint
  cases call.endpoint <|> c.addressed? call <|> c.settings.defaultEndpoint <;> simp

theorem endpoint_eq_error : c.endpoint call = .error (.invalid (.noEndpoint call.method)) ↔
    (call.endpoint <|> c.addressed? call <|> c.settings.defaultEndpoint) = none := by
  unfold endpoint
  cases call.endpoint <|> c.addressed? call <|> c.settings.defaultEndpoint <;> simp

/-- A call goes to the endpoint that it names. If it names none, it goes to the first text that is given for a parameter of
the address type and, if there is no such text, to the default, provided that no such parameter which is given something
else stands in front of that text. It fails only if there is none of the three. -/
theorem endpoint_selects (c : Client ν) (call : ServiceCall) (h : call.endpoint = none → c.Unobstructed call) :
    (∀ e, c.endpoint call = .ok e ↔ c.Selects call e) ∧
      (c.endpoint call = .error (.invalid (.noEndpoint call.method)) ↔ ∀ e, ¬c.Selects call e) := by
  have hselects (e : String) : (call.endpoint <|> c.addressed? call <|> c.settings.defaultEndpoint) = some e ↔
      c.Selects call e := by
    cases hnamed : call.endpoint with
    | some named =>
      constructor
      · intro he
        obtain rfl : named = e := by simpa using he
        exact .explicit hnamed
      · rintro (hsame | ⟨hnone, _⟩ | ⟨hnone, _⟩)
        · simpa using hnamed.symm.trans hsame
        · cases hnamed.symm.trans hnone
        · cases hnamed.symm.trans hnone
    | none =>
      have hfree := h hnamed
      cases haddressed : c.addressed? call with
      | some found =>
        obtain ⟨i, hi, hfirst⟩ := hfree.addressed?_eq_some.mp haddressed
        constructor
        · intro he
          obtain rfl : found = e := by simpa using he
          exact .addressed hnamed hi hfirst
        · rintro (hsame | ⟨_, hj, hfirst'⟩ | ⟨_, hnone, _⟩)
          · cases hnamed.symm.trans hsame
          · simpa using haddressed.symm.trans (hfree.addressed?_eq_some.mpr ⟨_, hj, hfirst'⟩)
          · exact absurd hi (hnone i found)
      | none =>
        have hnone := hfree.addressed?_eq_none.mp haddressed
        constructor
        · intro he
          exact .default hnamed hnone (by simpa using he)
        · rintro (hsame | ⟨_, hi, _⟩ | ⟨_, _, hdefault⟩)
          · cases hnamed.symm.trans hsame
          · exact absurd hi (hnone _ _)
          · simpa using hdefault
  refine ⟨fun e => endpoint_eq_ok.trans (hselects e), endpoint_eq_error.trans ?_⟩
  rw [Option.eq_none_iff_forall_ne_some]
  exact forall_congr' fun e => not_congr (hselects e)

end Client

namespace pier

/-- A client with a type of addresses and a default. -/
def courier : Client Unit where
  settings := { addressType := some "Net.Address", defaultEndpoint := some "depot" }
  transport := asleep.transport

/-- A call with two parameters of the address type. -/
def parcel (args : List Value) : ServiceCall where
  method := ⟨⟨none, "Net.Sender"⟩, "Send", [TypeName.text, "Net.Address", "Net.Address"]⟩
  args := args

end pier

open pier in
theorem courier_selects : courier.endpoint (parcel [.text "body", .text "quay", .null]) = .ok "quay" ∧
    courier.Selects (parcel [.text "body", .text "quay", .null]) "quay" := by
  have hfree : courier.Unobstructed (parcel [.text "body", .text "quay", .null]) := by
    -- The only text for such a parameter is the second argument, and the parameter in front of it is of another type.
    rintro (_ | _ | _ | i) e ⟨_, v, _, _, hv, he⟩ j hj htype
    · cases hj
    · obtain rfl : j = 0 := Nat.lt_one_iff.mp hj
      exact absurd (Option.some.inj htype) (by decide)
    · cases hv
      cases he
    · cases hv
  have hselects := (Client.endpoint_selects courier (parcel [.text "body", .text "quay", .null]) fun _ => hfree).1 "quay"
  exact ⟨rfl, hselects.mp rfl⟩

example : pier.courier.endpoint (pier.parcel [.text "body", .null, .text "quay"]) = .ok "depot" := rfl

/-! ## Endpoints that do not matter -/

/-- The client with another default and another type of addresses. -/
def Client.rerouted {ν : Type} (c : Client ν) (default address : Option String) : Client ν :=
  { c with settings := { c.settings with defaultEndpoint := default, addressType := address } }

/-- The call with another endpoint named, or none. -/
def ServiceCall.rerouted (call : ServiceCall) (endpoint : Option String) : ServiceCall := { call with endpoint }

namespace Client
variable {ν : Type} {c : Client ν}

/-- There is an endpoint for the call. -/
def Resolves (c : Client ν) (call : ServiceCall) : Prop := ∃ e, c.endpoint call = .ok e

theorem endpoint_of_not_resolves {call : ServiceCall} (h : ¬c.Resolves call) :
    c.endpoint call = .error (.invalid (.noEndpoint call.method)) := by
  rw [endpoint_eq_error]
  refine Option.eq_none_iff_forall_ne_some.mpr fun e he => h ⟨e, ?_⟩
  exact endpoint_eq_ok.mpr he

/-- A default is an endpoint for every call. -/
theorem resolves_of_default {e : String} (h : c.settings.defaultEndpoint = some e) (call : ServiceCall) :
    c.Resolves call := by
  by_contra hnone
  have hall := endpoint_eq_error.mp (endpoint_of_not_resolves hnone)
  simp [h] at hall

/-- What a call does when its endpoint has been chosen. -/
def deliver (c : Client ν) (host : Host (Reach ν)) (run : Runner (Reach ν)) (call : ServiceCall) (target : MethodHandle)
    (hash : String) (nonLocals : List (Variable Value)) (endpoint : String) : Calling ν (CallResult Value) := do
  let params := (target.decl.params.zip call.args).map fun (p, v) =>
    ({ kind := .parameter, name := p.name, type := p.type, value := v } : Variable Value)
  let id ← freshId
  let r : Request Value := { id, mode := call.mode, onMainThread := call.onMainThread, file := target.module.name, hash,
                             type := call.method.owner.fullName, method := call.method.name, params, nonLocals }
  let result ← c.recovery.recover (fun d => onNetwork (c.transport.wait d)) endpoint (c.attempt r target.module)
  let result ← result.traverse State.instantiate
  if call.mode = .normal ∧ result.isExecuted then
    Transfer.apply host run call.receiver result.nonLocals
  return result

/-- The state is captured first, and then the endpoint is chosen. -/
theorem call_eq_deliver (c : Client ν) (host : Host (Reach ν)) (run : Runner (Reach ν)) (call : ServiceCall) :
    c.call host run call = if !c.settings.enabled then pure .disabled else (do
      let target ← host.resolveMethod call.method
      let hash ← c.moduleHash target.module
      let nonLocals ← captured host run call target
      let endpoint ← Run.ofExcept (c.endpoint call)
      c.deliver host run call target hash nonLocals endpoint) := by
  unfold Client.call deliver
  simp only [request_eq_captured, bind_assoc, pure_bind]

theorem attemptOn_rerouted (default address : Option String) (r : Request Value) (l : LoadedModule) (endpoint : String)
    (made : c.transport.Channel) :
    (c.rerouted default address).attemptOn r l endpoint made = c.attemptOn r l endpoint made := by
  unfold attemptOn
  refine congrArg (Run.attempt (onChannel (c.transport.endpoint made) (c.transport.start made)) >>= ·) (funext fun o => ?_)
  cases o <;> rfl

theorem attempt_rerouted (default address : Option String) (r : Request Value) (l : LoadedModule) :
    (c.rerouted default address).attempt r l = c.attempt r l := by
  funext endpoint
  rw [attempt_eq, attempt_eq]
  exact congrArg (onNetwork (c.transport.connect endpoint) >>= ·)
    (funext (attemptOn_rerouted (c := c) default address r l endpoint))

section
variable {endpoints : List String} (hrecovery : c.recovery = .failover endpoints) (default address : Option String)
include hrecovery

theorem deliver_rerouted (host : Host (Reach ν)) (run : Runner (Reach ν)) (call : ServiceCall) (endpoint : Option String)
    (target : MethodHandle) (hash : String) (nonLocals : List (Variable Value)) (e e' : String) :
    (c.rerouted default address).deliver host run (call.rerouted endpoint) target hash nonLocals e' =
      c.deliver host run call target hash nonLocals e := by
  have hrerouted : (c.rerouted default address).recovery = .failover endpoints := hrecovery
  unfold deliver
  rw [hrecovery, hrerouted]
  simp only [Recovery.recover, attempt_rerouted]
  rfl

theorem call_rerouted (host : Host (Reach ν)) (run : Runner (Reach ν)) {call : ServiceCall} {endpoint : Option String}
    (h : c.Resolves call ↔ (c.rerouted default address).Resolves (call.rerouted endpoint)) :
    (c.rerouted default address).call host run (call.rerouted endpoint) = c.call host run call := by
  have hrest (target : MethodHandle) (hash : String) (nonLocals : List (Variable Value)) :
      (do
        let e ← Run.ofExcept ((c.rerouted default address).endpoint (call.rerouted endpoint))
        (c.rerouted default address).deliver host run (call.rerouted endpoint) target hash nonLocals e) = (do
        let e ← Run.ofExcept (c.endpoint call)
        c.deliver host run call target hash nonLocals e) := by
    by_cases hresolves : c.Resolves call
    · obtain ⟨e, he⟩ := hresolves
      obtain ⟨e', he'⟩ := h.mp ⟨e, he⟩
      rw [he, he']
      exact deliver_rerouted hrecovery default address host run call endpoint target hash nonLocals e e'
    · -- what would have come next is never compared
      have hends (e : Error) (next : String → Calling ν (CallResult Value)) :
          (Run.ofExcept (.error e) >>= next) = throw e := rfl
      rw [endpoint_of_not_resolves hresolves, endpoint_of_not_resolves (mt h.mpr hresolves), hends, hends]
      rfl
  rw [call_eq_deliver, call_eq_deliver]
  simp only [hrest]
  rfl

theorem dispatcher_rerouted
    (h : ∀ call, call.endpoint = none → (c.Resolves call ↔ (c.rerouted default address).Resolves call)) :
    (c.rerouted default address).dispatcher = c.dispatcher := by
  have hdispatch : (c.rerouted default address).dispatcher.dispatch = c.dispatcher.dispatch := by
    funext host run site receiver args
    have henabled : (c.rerouted default address).settings.enabled = c.settings.enabled := rfl
    have hboth := h ⟨site.mode, site.onMainThread, none, site.method, receiver, args⟩ rfl
    have hcall := call_rerouted hrecovery default address host run hboth
    simp only [ServiceCall.rerouted] at hcall
    simp only [dispatcher, henabled, hcall]
  exact congrArg Dispatcher.mk hdispatch

end

/-- A call without an endpoint ends when the state has been captured. Whatever the recovery is, nothing is attempted. -/
theorem call_unresolved {call : ServiceCall} (henabled : c.settings.enabled = true) (h : ¬c.Resolves call)
    (host : Host (Reach ν)) (run : Runner (Reach ν)) : c.call host run call = (do
      let target ← host.resolveMethod call.method
      let _ ← c.moduleHash target.module
      let _ ← captured host run call target
      throw (.invalid (.noEndpoint call.method))) := by
  rw [call_eq_deliver, henabled, endpoint_of_not_resolves h]
  rfl

/-- The list of a failover is what counts. Two calls that differ in the endpoint that they name, by clients that differ in
the default and in the type of addresses, do the same from every state, with all their attempts and the traffic on their
channels, if there is an endpoint for both of them or for neither. Clients that have endpoints for the same calls serve
dispatch instructions alike. -/
theorem failover_authoritative {endpoints : List String} (hrecovery : c.recovery = .failover endpoints)
    (default address : Option String) :
    (∀ call endpoint, (c.Resolves call ↔ (c.rerouted default address).Resolves (call.rerouted endpoint)) →
      (∀ host run, (c.rerouted default address).call host run (call.rerouted endpoint) = c.call host run call) ∧
        ∀ host run, (c.rerouted default address).recording.call host run (call.rerouted endpoint) =
          c.recording.call host run call) ∧
      ((∀ call, call.endpoint = none → (c.Resolves call ↔ (c.rerouted default address).Resolves call)) →
        (c.rerouted default address).dispatcher = c.dispatcher ∧
          (c.rerouted default address).recording.dispatcher = c.recording.dispatcher) := by
  constructor
  · intro call endpoint h
    exact ⟨fun host run => call_rerouted hrecovery default address host run h,
      fun host run => call_rerouted (c := c.recording) hrecovery default address host run h⟩
  · intro h
    exact ⟨dispatcher_rerouted hrecovery default address h,
      dispatcher_rerouted (c := c.recording) hrecovery default address h⟩

end Client

/-- The client with a failover. -/
def pier.relay : Client Unit := { courier with recovery := .failover ["quay", "depot"] }

open pier in
theorem relay_authoritative :
    (relay.rerouted (some "island") none).call quiet.host (Machine.runner quiet 4)
        ((parcel [.null, .text "quay"]).rerouted (some "reef")) =
      relay.call quiet.host (Machine.runner quiet 4) (parcel [.null, .text "quay"]) ∧
    (relay.rerouted (some "island") none).dispatcher = relay.dispatcher := by
  have hdefault (call : ServiceCall) : relay.Resolves call := Client.resolves_of_default rfl call
  have hdefault' (call : ServiceCall) : (relay.rerouted (some "island") none).Resolves call :=
    Client.resolves_of_default rfl call
  have hsame := Client.failover_authoritative (c := relay) rfl (some "island") none
  constructor
  · exact (hsame.1 (parcel [.null, .text "quay"]) (some "reef") (iff_of_true (hdefault _) (hdefault' _))).1 _ _
  · exact (hsame.2 fun call _ => iff_of_true (hdefault call) (hdefault' call)).1

end MobileCode
