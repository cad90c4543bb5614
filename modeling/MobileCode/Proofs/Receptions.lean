import MobileCode.Proofs.Freights
import MobileCode.Proofs.Envelopes
import MobileCode.Proofs.Overloads

/-! # Requests that are carried out

A server that is asked for the method makes the objects of the arguments and of the state that came along, and a new object
for the receiver. It writes the state, runs the method and reads the state again. If the method completes at home, in a way
that can be done elsewhere, then it completes here, and the answer holds what there is at home in the end.
-/
namespace MobileCode

/-- Variables with values of their own, made one after the other. -/
def Heap.instantiateVariables (vs : List (Variable Datum)) (k : Heap) : List (Variable Value) × Heap := (makeVariables vs).run k

theorem Heap.instantiateVariables_cons (v : Variable Datum) (vs : List (Variable Datum)) (k : Heap) :
    instantiateVariables (v :: vs) k = (v.withValue (instantiate v.value k).1 ::
      (instantiateVariables vs (instantiate v.value k).2).1, (instantiateVariables vs (instantiate v.value k).2).2) := by
  unfold instantiateVariables makeVariables
  rw [List.mapM_cons, StateT.run_bind]
  show (StateT.run (vs.mapM _ >>= _) _) = _
  rw [StateT.run_bind]
  rfl

theorem Heap.instantiateVariables_grows (vs : List (Variable Datum)) (k : Heap) : k.Extends (instantiateVariables vs k).2 :=
  Makes.ofVariables.grows vs k

theorem State.mapM_instantiate_variables_eq {ω : Type} (vs : List (Variable Datum)) (s : State ω) :
    vs.mapM (·.traverse instantiate) s = some (.ok (Heap.instantiateVariables vs s.domain.heap).1,
      s.withHeap (Heap.instantiateVariables vs s.domain.heap).2) := by
  induction vs generalizing s with
  | nil => rfl
  | cons v vs ih =>
    rw [List.mapM_cons, Run.bind_apply, Variable.traverse, Run.bind_apply, instantiate_apply, Heap.instantiateVariables_cons]
    simp only [Run.pure_apply, Run.bind_apply, ih]
    rfl

namespace Server
variable {r : Request Datum} {host : Host Storage} {s : Server}

/-- A method that is meant by the arguments, whatever objects there are, is the one that is asked for. -/
theorem ask_meant {owner : TypeHandle} (htype : s.domain.type? r.type = some owner) {asked : MethodHandle}
    (hasked : ∀ k args, List.Forall₂ (fun v x => ∀ declared, k.matchesType v declared = x.belongsTo declared) args r.arguments →
      { s.domain with heap := k }.meant? owner r.type r.method args = some asked) :
    ask r host s = some (.ok (asked, (Heap.instantiateItems r.arguments s.domain.heap).1,
      (Heap.instantiateVariables r.nonLocals (Heap.instantiateItems r.arguments s.domain.heap).2).1),
      s.withHeap (Heap.instantiateVariables r.nonLocals (Heap.instantiateItems r.arguments s.domain.heap).2).2) := by
  have hext := Heap.instantiateVariables_grows r.nonLocals (Heap.instantiateItems r.arguments s.domain.heap).2
  have hmeant := hasked _ _ (Heap.instantiateItems_matches r.arguments hext)
  have hresolve : host.resolveOverload r.type r.method (Heap.instantiateItems r.arguments s.domain.heap).1 (s.withHeap
      (Heap.instantiateVariables r.nonLocals (Heap.instantiateItems r.arguments s.domain.heap).2).2) = _ :=
    Host.resolveOverload_found htype
  rw [show (s.withHeap _).domain.meant? owner r.type r.method _ = some asked from hmeant] at hresolve
  rw [ask, Run.bind_apply, State.mapM_instantiate]
  dsimp only
  rw [Run.bind_apply, State.mapM_instantiate_variables_eq]
  dsimp only
  have hheap : (s.withHeap (Heap.instantiateItems r.arguments s.domain.heap).2).domain.heap =
      (Heap.instantiateItems r.arguments s.domain.heap).2 := rfl
  rw [Run.bind_apply, State.withHeap_withHeap, hheap, hresolve]
  rfl

/-- In normal mode the receiver is made first, and the state is written, and read again after the run. -/
theorem runSelected_normal (hmode : r.mode = .normal) {run : Runner Storage} {entry : MethodHandle} {args : List Value}
    {nonLocals : List (Variable Value)} : runSelected r host run entry args nonLocals =
      ((if entry.decl.isStatic then pure none else some <$> host.construct run r.type) >>= fun receiver => do
        Transfer.apply host run receiver nonLocals
        let result ← Host.invokeHandle run entry receiver args
        let (nonLocals, outcome) ← Transfer.refresh host run receiver nonLocals
        Run.ofExcept outcome
        return .completed result nonLocals) := by
  simp only [runSelected, hmode, if_true]
  cases entry.decl.isStatic <;> rfl

end Server

namespace Outing
variable (e : Outing)

/-- A request for the method, with the state of arguments and of the variables that go along. No object is in it twice. -/
structure Requests (s : State Unit) (args : List Value) (vs : List (Variable Value)) (r : Request Datum) : Prop where
  mode : r.mode = .normal
  type : r.type = e.type
  arguments : List.Forall₂ (fun v x => s.domain.heap.snapshot v = some x) args r.arguments
  nonLocals : List.Forall₂ (fun v d => s.domain.heap.snapshot v.value = some d.value ∧ d = v.withValue d.value) vs r.nonLocals
  once : (args.flatMap s.domain.heap.trail ++ vs.flatMap fun v => s.domain.heap.trail v.value).Nodup
  apart : ∀ x ∈ e.receiver, x ∉ args.flatMap s.domain.heap.trail ++ vs.flatMap fun v => s.domain.heap.trail v.value

/-- A run of the method at home, from one state to another, that can be done elsewhere. -/
structure Runs (m : MethodHandle) (args : List Value) (s s' : State Unit) (v : Value) : Prop where
  run : ∃ budget, Host.invokeHandle (Machine.runner e.env budget) m e.receiver args s = some (.ok v, s') ∧
    ∀ f, Frame.enter s.domain.maxDepth 0 m e.receiver args = .ok f →
      Machine.Behaves e.env e.Admits budget (.next f []) s
  receiver : ∀ x ∈ e.receiver, ∃ o, s.domain.heap.get? x = some o ∧ o.type = e.type

/-- The server makes images of all objects that are sent. -/
theorem Requests.ships {e : Outing} {w : Shared} {s : State Unit} {args : List Value} {vs : List (Variable Value)} {r : Request Datum}
    (hr : e.Requests s args vs r) (hnone : ∀ a b, ¬w.links a b) (k : Heap) : ∃ links,
    Heap.Mirrors e.veil {} links s.domain.heap (Heap.instantiateVariables r.nonLocals (Heap.instantiateItems r.arguments k).2).2 ∧
      List.Forall₂ (Value.Linked links) args (Heap.instantiateItems r.arguments k).1 ∧
      List.Forall₂ (Variable.Linked links) vs
        (Heap.instantiateVariables r.nonLocals (Heap.instantiateItems r.arguments k).2).1 ∧
      ∀ x ∈ e.receiver, ∀ y, ¬links x y := by
  obtain ⟨hargs, hvs, hdisjoint⟩ := List.nodup_append.mp hr.once
  have hempty : Heap.Mirrors e.veil {} w.links s.domain.heap k :=
    ⟨fun h => absurd h (hnone _ _), fun h => absurd h (hnone _ _), fun h => absurd h (hnone _ _),
      fun h => absurd h (hnone _ _), fun _ _ h => (nomatch h)⟩
  obtain ⟨w₁, _, hw₁, hlinked₁, hfrom₁⟩ := Heap.conveys_items hr.arguments hargs _ k hempty fun x _ y => hnone x y
  have hnew : ∀ x ∈ vs.flatMap fun v => s.domain.heap.trail v.value, ∀ y, ¬w₁ x y := fun x hx y hxy =>
    (hfrom₁ x y hxy).elim (hnone x y) fun hx' => hdisjoint x hx' x hx rfl
  obtain ⟨w₂, hle, hw₂, hlinked₂, hfrom₂⟩ := Heap.conveys_variables hr.nonLocals hvs w₁ _ hw₁ hnew
  refine ⟨w₂, hw₂, hlinked₁.imp fun _ _ h => h.mono hle, hlinked₂, fun x hx y hxy => hr.apart x hx ?_⟩
  rcases hfrom₂ x y hxy with hxy | hx'
  · exact List.mem_append_left _ ((hfrom₁ x y hxy).elim (fun h => absurd h (hnone x y)) id)
  · exact List.mem_append_right _ hx'

end Outing

namespace Errand
variable {e : Errand Storage}

/-- The new object for the receiver can be made. -/
structure Makes (e : Errand Storage) (t : Server) : Prop where
  bare : t.domain.Bare e.boundary.clientType
  still : t.domain.SharesStatics (fun _ _ => True) (fun _ _ => False) t.domain
  alone : ∃ n r u, (Host.standard e.worker).construct (Machine.runner { host := .standard e.worker } n) e.type
    ⟨{ t.domain with heap := {} }, ()⟩ = some (.ok r, u)

/-- A method of the server that is run when the method is asked for. -/
structure Answers (e : Errand Storage) (w : Shared) (t : Server) (r : Request Datum) (m asked : MethodHandle) : Prop where
  paired : e.standIn.Paired w m asked
  owner : ∃ owner, t.domain.type? e.type = some owner ∧ ∀ k args,
    List.Forall₂ (fun v x => ∀ declared, k.matchesType v declared = x.belongsTo declared) args r.arguments →
      { t.domain with heap := k }.meant? owner e.type r.method args = some asked
  undirected : asked.decl.flags.has MethodFlags.relayEntry = true → asked.decl.relayBody = none
  static : asked.decl.isStatic = e.receiver.isNone

theorem Makes.withHeap {t : Server} (h : e.Makes t) (k : Heap) : e.Makes (t.withHeap k) :=
  ⟨⟨h.bare.toCoherent.congr rfl rfl rfl fun _ => rfl, h.bare.forms⟩, h.still, h.alone⟩

variable {w : Shared} {s s' : State Unit} {t : Server} {m asked : MethodHandle} {args : List Value}
  {vs : List (Variable Value)} {r : Request Datum} {v : Value}

/-- Other objects in the domain, and other links, do not matter. -/
theorem Settled.withHeap (hs : e.Settled w s t) (links : Links) (h : Heap) : e.Settled ⟨links, w.modules⟩ s (t.withHeap h) where
  home := hs.home
  complete := hs.complete
  away := hs.away.congr rfl rfl rfl fun _ => rfl
  held := hs.held
  root := hs.root
  depth := hs.depth
  depth' := hs.depth'
  keeps := hs.keeps

/-- The server makes a new object for the receiver, if there is one. -/
theorem Settled.receives (hs : e.Settled w s t) (hmakes : e.receiver ≠ none → e.Makes t)
    (hreceiver : ∀ x ∈ e.receiver, ∃ o, s.domain.heap.get? x = some o ∧ o.type = e.type)
    (hheap : Heap.Mirrors e.veil {} w.links s.domain.heap t.domain.heap) (hfree : ∀ x ∈ e.receiver, ∀ y, ¬w.links x y) :
    ∃ n target t', e.Settled w s t' ∧ Heap.Mirrors e.veil {} w.links s.domain.heap t'.domain.heap ∧
      e.Receives w.links s.domain.heap t'.domain.heap e.receiver target ∧ ∀ k,
        (if e.receiver.isNone then pure none else some <$> (Host.standard e.worker (some e.resolve)).construct
          (Machine.runner e.standIn.env' (n + k)) e.type : Serving (Option Ref)) t = some (.ok target, t') := by
  cases hx : e.receiver with
  | none => exact ⟨0, none, t, hs, hheap, .none, fun _ => rfl⟩
  | some x =>
    obtain ⟨hbare, hstill, n, r, u, halone⟩ := hmakes fun h => nomatch hx.symm.trans h
    obtain ⟨N, r', t', hadds, hconstruct⟩ : ∃ N r' t', t.Adds e.type r' t' ∧ ∀ k,
        (Host.standard e.worker (some e.resolve)).construct (Machine.runner e.standIn.env' (N + k)) e.type t =
          some (.ok r', t') := Host.construct_enclosed hbare hstill halone
    obtain ⟨o, ho, htype⟩ := hreceiver x hx
    obtain ⟨o', ho', htype'⟩ := hadds.made
    refine ⟨N, some r', t', ?_, hheap.extended hadds.others, .some ho htype ho' htype' (hfree x hx) fun a ha => ?_, fun k => ?_⟩
    · exact {
        home := hs.home
        complete := hs.complete
        away := hs.away.congr (by rw [hadds.code.same]) (by rw [hadds.code.same]) (by rw [hadds.code.same]) hadds.code.stores
        held := fun m hm hheld => (hadds.code.module? m.name).symm ▸ hs.held m hm hheld
        root := hs.root
        depth := hs.depth
        depth' := hadds.code.maxDepth.trans hs.depth'
        keeps := hadds.outside.symm ▸ hs.keeps }
    · obtain ⟨_, p, _, hp, _⟩ := hheap.object ha
      cases hadds.new.symm.trans hp
    · show (some <$> _ : Serving (Option Ref)) t = _
      rw [map_eq_pure_bind, Run.bind_apply]
      erw [hconstruct k]
      rfl

/-- If the method completes at home, in a way that can be done elsewhere, it completes on the server. The answer has the state
of the result at home, and that of each member as it is at home in the end. -/
theorem Prepared.answers (he : e.Prepared) (hs : e.Settled w s t) (hnone : ∀ a b, ¬w.links a b) (hpacks : e.Packs s vs)
    (hr : e.Requests s args vs r) (hasked : e.Answers w t r m asked) (hmakes : e.receiver ≠ none → e.Makes t)
    (hruns : e.Runs m args s s' v)
    (hends : ∀ u ∈ vs, ∀ p, u.slot? e.receiver = some p → ∃ x d, s'.domain.at? p = some x ∧
      s'.domain.heap.snapshot x = some d ∧ s'.domain.heap.Clear e.veil x) {d : Datum}
    (hv : s'.domain.heap.snapshot v = some d) (hclear : s'.domain.heap.Clear e.veil v) :
    ∃ n v' ws t', (∀ k, Server.invoke r (Host.standard e.worker (some e.resolve)) (Machine.runner e.standIn.env' (n + k)) t =
      some (.ok (.completed v' ws), t')) ∧ t'.domain.heap.snapshot v' = some d ∧ List.Forall₂ (e.Returns s' t'.domain.heap) vs ws := by
  obtain ⟨links, hheap, hargs, hvs, hfree⟩ := hr.ships hnone t.domain.heap
  obtain ⟨budget, hrun, hportable⟩ := hruns.run
  let t₀ := t.withHeap (Heap.instantiateVariables r.nonLocals (Heap.instantiateItems r.arguments t.domain.heap).2).2
  have hs₀ : e.Settled ⟨links, w.modules⟩ s t₀ := hs.withHeap links _
  obtain ⟨N, target, t₁, hs₁, hheap₁, hreceives, hconstruct⟩ :=
    hs₀.receives (fun h => (hmakes h).withHeap _) hruns.receiver hheap hfree
  obtain ⟨d₁, w₁, happly, hle, hrel, hholds⟩ := hpacks.deliver he hs₁ hheap₁ hvs hreceives
  have hle' : w ≤ w₁ := ⟨fun a b h => absurd h (hnone a b), hle.2⟩
  obtain ⟨n, v', t', w', hv', hle₁, hholds', hlinked⟩ := he.invoke_echoes hholds (he.lawful.mono hle' hasked.paired) hrel
    (hargs.imp fun _ _ h => h.mono hle.1) hportable hrun
  have hrel' : Option.Rel w'.links e.receiver target := by
    generalize e.receiver = x at hrel
    cases hrel with
    | none => exact .none
    | some h => exact .some (hle₁.1 _ _ h)
  obtain ⟨ws, hrefresh, hreturns⟩ := hpacks.fetch he hholds' hrel' (hvs.imp fun _ _ h => h.same) hends
  refine ⟨N + n, v', ws, t', fun k => ?_, hholds'.heap.snapshot hlinked hclear hv, hreturns⟩
  obtain ⟨owner, howner, hmeant⟩ := hasked.owner
  have hask : Server.ask r (Host.standard e.worker (some e.resolve)) t = _ :=
    Server.ask_meant (hr.type.symm ▸ howner) (hr.type.symm ▸ hmeant)
  have hentry := Server.entryPoint_undirected r (Host.standard e.worker (some e.resolve)) hr.mode hasked.undirected
    (Heap.instantiateItems r.arguments t.domain.heap).1
  have hconstruct' := hconstruct (n + k)
  rw [← Nat.add_assoc, ← hasked.static, ← hr.type] at hconstruct'
  have hrun' := hv' (N + k)
  rw [show n + (N + k) = N + n + k by omega] at hrun'
  rw [Server.invoke_eq, Run.bind_apply, hask]
  dsimp only
  rw [hentry, pure_bind]
  rw [Server.runSelected_normal hr.mode, Run.bind_apply, hconstruct']
  dsimp only
  rw [Run.bind_apply, happly]
  dsimp only
  rw [Run.bind_apply, hrun']
  dsimp only
  rw [Run.bind_apply, hrefresh]
  rfl

end Errand
end MobileCode
