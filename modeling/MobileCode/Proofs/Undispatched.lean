import MobileCode.Proofs.Entries
import MobileCode.Proofs.Natives
import MobileCode.Proofs.Registration
import MobileCode.Service.Client

/-! # Runs without dispatch

A server installs no client and a client may be disabled: then nothing is executed elsewhere. Normal and
replayed methods run their bodies in place, as in the module that was deployed. A relayed method does
not: its sibling returns after the dispatch, whether anything was executed elsewhere or not.
-/
namespace MobileCode

/-- A disabled client leaves all calls where they are. -/
theorem Client.idle_of_disabled {ν : Type} {client : Client ν} (h : client.settings.enabled = false) :
    client.dispatcher.Idle := by
  intro host run site receiver args s
  simp only [Client.dispatcher, h, Bool.not_false, if_true]
  rfl

theorem Environment.idleFor_of_disabled {ν : Type} {env : Environment (Reach ν)} {type : String} {c : Client ν}
    (hinstalled : env.dispatcher? type = some c.dispatcher) (h : c.settings.enabled = false) :
    env.IdleFor type := by
  intro d hd
  cases hinstalled.symm.trans hd
  exact c.idle_of_disabled h

/-- Both modules of a deployment have its targets in their mobile forms. -/
theorem Deployment.grown {boundary : Boundary} {digest : DigestAlgorithm} {m n : Module Datum}
    {dependencies : List (Module Datum)} {dep : Deployment}
    (hmake : make? boundary digest m dependencies = .ok (some dep)) (hn : n = dep.client ∨ n = dep.server) :
    m.Grown boundary.clientType (fun i k => (i, k) ∈ m.targets.map Target.position) n := by
  obtain ⟨hclient, hserver⟩ := make?_grown hmake
  obtain rfl | rfl := hn
  · exact hclient
  · rw [hserver]
    refine serverModule_grown hclient fun t ht => ?_
    obtain ⟨hmem, hmode⟩ := List.mem_filter.mp ht
    exact ⟨⟨(Module.mem_targets.mp hmem).1, List.mem_map_of_mem hmem⟩, of_decide_eq_true hmode⟩

section Relays
variable {ω : Type} {c : Comparison} {w : Links} {env : Environment ω}

/-- A relayed method, entered on whatever stack, comes back in the state that it was entered in. -/
theorem Machine.relay_returns (hidle : env.IdleFor c.client) (hspares : env.host.SparesSiblings) (hexact : ¬c.exact)
    {m n : MethodHandle} (hm : MethodHandle.Alike c w m n) (hrelay : c.modeOf? m = some .relay) {args : List Value}
    (hargs : args.length = m.decl.params.length) {depth : Nat} (hroom : depth + 1 < c.limit) (r : Option Ref)
    (below : List Frame) {s : State ω} (hs : c.Holds s) : ∃ k, ∀ budget,
      resume env (budget + k) (.next (.first n r args depth) below) s =
        resume env budget (finish (.first n r args depth) below .null) s := by
  have hmoves : c.moves m = true := by
    rw [Comparison.moves, hrelay]
    rfl
  obtain ⟨mode, sibling, hmode, _, hstub⟩ := hm.stub hmoves
  cases hrelay.symm.trans hmode
  have hleads : Transition.Leads c env (· = finish (.first n r args depth) below .null)
      (.next (.first n r args depth) below) :=
    .over_relay hidle hspares (hm.kept hexact (c.module_of_moves hmoves)) hstub hargs hroom (.here rfl)
  obtain ⟨k, _, hk, rfl⟩ := hleads.catchUp hs
  exact ⟨k, hk⟩

end Relays

/-- Where nothing is executed elsewhere, a call that completes in the domain with the module completes alike
in the domain with one of its deployed forms, unless a relayed method is called. Such a call returns at once,
its body is not run. -/
theorem Deployment.completes_unless_relayed {ω : Type} {boundary : Boundary} {digest : DigestAlgorithm}
    {m n : Module Datum} {dependencies : List (Module Datum)} {dep : Deployment} {start d e : Domain}
    {l l' : LoadedModule} {bytes bytes' : Bytes} {path path' : Option String} {env : Environment ω}
    (hvalid : m.Valid) (hwords : m.Addressable)
    (hmake : make? boundary digest m dependencies = .ok (some dep)) (hn : n = dep.client ∨ n = dep.server)
    (hstart : start.Closed) (hnew : start.module? m.name = none) (hd : start.register m bytes path = .ok (l, d))
    (he : start.register n bytes' path' = .ok (l', e)) {c : Comparison}
    (hc : c = .deployment start e m.name boundary.clientType) (hidle : env.IdleFor boundary.clientType)
    (hhost : env.host.Impartial c) (hspares : env.host.SparesSiblings) :
    ∃ w, Domain.Alike c w d e ∧ ∀ w' (s t : State ω), State.Alike c w' s t →
      (∀ (call call' : Entry) budget v s', call.Linked w' call' → call.perform env budget s = some (.ok v, s') →
        call.Throughout env (c.Allows env) budget s →
        ∃ k b, call'.perform env k t = some b ∧ c.Ends w' (.ok v, s') b) ∧
      ∀ asked relayed, MethodHandle.Alike c w' asked relayed → c.modeOf? asked = some .relay →
        ∀ args depth, args.length = asked.decl.params.length → depth + 1 < c.limit → ∀ r below,
          ∃ k, ∀ budget, Machine.resume env (budget + k) (.next (.first relayed r args depth) below) t =
            Machine.resume env budget (Machine.finish (.first relayed r args depth) below .null) t := by
  subst hc
  obtain ⟨w, hde⟩ := Domain.register_alike hstart hvalid hwords (grown hmake hn) hnew hd he
  refine ⟨w, hde, fun w' s t hst => ⟨?_, ?_⟩⟩
  · intro call call' budget v s' hcall hv hallows
    exact Entry.perform_forward hhost hidle (fun _ => hspares) hcall hst hallows hv (.inr ⟨v, rfl⟩)
  · intro asked relayed hm hrelay args depth hargs hroom r below
    exact Machine.relay_returns hidle hspares id hm hrelay hargs hroom r below hst.holds

/-- A module whose method is replayed: it is to set a static field on both sides. -/
def gauge : Module Datum where
  name := "Gauge"
  types := [{
    space := "Ops"
    name := "Gauge"
    fields := [⟨"level", TypeName.int32, MemberFlags.static, none⟩]
    methods := [
      { name := constructorName, flags := MethodFlags.constructor, body := [.ret] },
      { name := "Set", flags := MethodFlags.static, mobility := some { mode := .replay },
        params := [⟨"n", TypeName.int32, none⟩],
        body := [.loadArg 0, .storeStatic ⟨⟨none, "Ops.Gauge"⟩, "level"⟩, .ret] }] }]

/-- A client that is disabled. -/
def asleep : Client Unit where
  settings := Settings.disabled.client
  transport := { Channel := Unit, connect := fun _ => pure (), endpoint := fun _ => "", start := pure,
                 exchange := fun _ _ _ _ => pure .moduleUnknown, close := pure, abort := fun _ s => ((), s) }

def quiet : Environment (Reach Unit) where
  host := { thread := none, natives := Native.standard none }
  dispatcher? _ := some asleep.dispatcher

def setLevel : Entry := .invoke ⟨⟨none, "Ops.Gauge"⟩, "Set", [TypeName.int32]⟩ none [.int32 7]

theorem quiet_idle (client : String) : quiet.IdleFor client :=
  Environment.idleFor_of_disabled (c := asleep) rfl rfl

/-- No step of the call enters a relayed method or runs out of depth. -/
theorem setLevel_allowed {l : LoadedModule} {d : Domain} (e : Domain)
    (hd : Domain.register { hostName := "client" } gauge [] none = .ok (l, d)) : setLevel.Throughout quiet
      ((Comparison.deployment { hostName := "client" } e "Gauge" defaultClientType).Allows quiet) 4
      ⟨d, { network := () }⟩ := by
  obtain ⟨rfl, rfl⟩ := Domain.register_eq_ok rfl hd
  have hreplay : some Mode.replay ≠ some Mode.relay := by decide
  have hroom : 1 < 256 := by decide
  intro t s' h
  cases h
  refine ⟨⟨.inr ⟨hreplay, hroom⟩, fun _ _ _ _ _ => quiet_idle _⟩, fun t s' h => ?_⟩
  cases h
  refine ⟨⟨.inr ⟨hreplay, hroom⟩, fun _ _ _ _ _ => quiet_idle _⟩, fun t s' h => ?_⟩
  cases h
  refine ⟨⟨.inr ⟨hreplay, hroom⟩, fun _ _ _ _ _ => quiet_idle _⟩, fun t s' h => ?_⟩
  cases h
  exact ⟨trivial, fun _ _ h => nomatch h⟩

theorem gauge_completes : ∃ dep l d l' e s' w k b, Deployment.make? {} .sha1 gauge [] = .ok (some dep) ∧
    Domain.register { hostName := "client" } gauge [] none = .ok (l, d) ∧
    Domain.register { hostName := "client" } dep.client [] none = .ok (l', e) ∧
    setLevel.perform quiet 4 ⟨d, { network := () }⟩ = some (.ok .null, s') ∧
    setLevel.perform quiet k ⟨e, { network := () }⟩ = some b ∧
    (Comparison.deployment { hostName := "client" } e "Gauge" defaultClientType).Ends w (.ok .null, s') b := by
  have hvalid : gauge.Valid :=
    { named := by decide
      typesNamed := by decide
      distinct := by decide
      branches := by simp [gauge, BranchesInside, Instruction.target?] }
  have hwords : gauge.Addressable := by simp [Module.Addressable, gauge]
  have hempty : Domain.Closed { hostName := "client" } := Domain.closed_of_empty rfl rfl rfl rfl
  have hloaded : ∃ dep l d l' e s', Deployment.make? {} .sha1 gauge [] = .ok (some dep) ∧
      Domain.register { hostName := "client" } gauge [] none = .ok (l, d) ∧
      Domain.register { hostName := "client" } dep.client [] none = .ok (l', e) ∧
      setLevel.perform quiet 4 ⟨d, { network := () }⟩ = some (.ok .null, s') :=
    ⟨_, _, _, _, _, _, rfl, rfl, rfl, rfl⟩
  obtain ⟨dep, l, d, l', e, s', hmake, hd, he, hv⟩ := hloaded
  obtain ⟨w, hde, hruns⟩ := Deployment.completes_unless_relayed hvalid hwords hmake (.inl rfl)
    hempty rfl hd he rfl (quiet_idle _) (Host.impartial_of_standard rfl rfl) (Host.sparesSiblings_of_standard rfl)
  have hargs : Entry.Linked w setLevel setLevel := .invoke _ .none (.cons (.int32 7) .nil)
  obtain ⟨k, b, hb, hends⟩ := (hruns w ⟨d, _⟩ ⟨e, _⟩ ⟨hde, rfl⟩).1 setLevel setLevel 4 .null s' hargs hv
    (setLevel_allowed e hd)
  exact ⟨dep, l, d, l', e, s', w, k, b, hmake, hd, he, hv, hb, hends⟩
end MobileCode
