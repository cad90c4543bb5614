import MobileCode.Proofs.Shapes
import MobileCode.Proofs.Undispatched
import MobileCode.Service.Server

/-! # What a server runs

A request names its method only, so the server takes the first declared overload that accepts the
arguments. For a relayed or replayed method it then runs the sibling, with the marker behind the given
arguments. This is the place of the marker only if no argument was left out.
-/
namespace MobileCode

/-! ## Values from outside -/

namespace State
variable {ω : Type}

/-- The state with another heap. -/
def withHeap (s : State ω) (h : Heap) : State ω := { s with domain := { s.domain with heap := h } }

@[simp] theorem withHeap_withHeap (s : State ω) (h k : Heap) : (s.withHeap h).withHeap k = s.withHeap k := rfl

theorem instantiate_apply (x : Datum) (s : State ω) : instantiate x s =
    some (.ok (Heap.instantiate x s.domain.heap).1, s.withHeap (Heap.instantiate x s.domain.heap).2) := rfl

theorem mapM_instantiate (xs : List Datum) (s : State ω) : xs.mapM instantiate s =
    some (.ok (Heap.instantiateItems xs s.domain.heap).1,
      s.withHeap (Heap.instantiateItems xs s.domain.heap).2) := by
  induction xs generalizing s with
  | nil => rfl
  | cons x xs ih =>
    rw [List.mapM_cons, Run.bind_apply, instantiate_apply]
    simp only [Run.bind_apply, ih]
    rfl

theorem mapM_instantiate_variables (vs : List (Variable Datum)) (s : State ω) :
    ∃ ws h, s.domain.heap.Extends h ∧ vs.mapM (·.traverse instantiate) s = some (.ok ws, s.withHeap h) := by
  induction vs generalizing s with
  | nil => exact ⟨[], _, .refl _, rfl⟩
  | cons v vs ih =>
    obtain ⟨ws, h, hext, hws⟩ := ih (s.withHeap (Heap.instantiate v.value s.domain.heap).2)
    refine ⟨v.withValue (Heap.instantiate v.value s.domain.heap).1 :: ws, h,
      (Heap.instantiate_grows v.value s.domain.heap).trans hext, ?_⟩
    rw [List.mapM_cons, Run.bind_apply, Variable.traverse, Run.bind_apply, instantiate_apply]
    simp only [Run.pure_apply, Run.bind_apply, hws]
    rfl

end State

theorem Domain.Has.withHeap {d : Domain} {m : Module Datum} {l : LoadedModule} (hd : d.Has m l) (h : Heap) :
    { d with heap := h }.Has m l := hd.congr rfl rfl rfl

/-- When the type is there, the method that the values mean is found without a change. -/
theorem Host.resolveOverload_found {ω : Type} {host : Host ω} {type method : String} {args : List Value} {s : State ω}
    {owner : TypeHandle} (h : s.domain.type? type = some owner) : host.resolveOverload type method args s =
      match s.domain.meant? owner type method args with
      | some asked => some (.ok asked, s)
      | none => some (.error (overloadMissing s.domain.heap type method args owner.module.name), s) := by
  rw [resolveOverload, Run.bind_apply, resolveLocal_found h]
  simp only [Run.get_bind]
  show (match s.domain.meant? owner type method args with | some handle => _ | none => _ : Run (State ω) _) s = _
  cases s.domain.meant? owner type method args <;> rfl

theorem Host.invokeHandle_entered {ω : Type} {run : Runner ω} {m : MethodHandle} {receiver : Option Ref}
    {args : List Value} {s : State ω} {f : Frame} (h : Frame.enter s.domain.maxDepth 0 m receiver args = .ok f) :
    invokeHandle run m receiver args s = run f s := by
  rw [invokeHandle, Run.get_bind, h]
  rfl

/-! ## Selection and run -/

namespace Server
variable (r : Request Datum) (host : Host Storage)

/-- The method that a request asks for, with its arguments and the state that the method is to find. -/
def ask : Serving (MethodHandle × List Value × List (Variable Value)) := do
  let args ← r.arguments.mapM State.instantiate
  let nonLocals ← r.nonLocals.mapM (·.traverse State.instantiate)
  let asked ← host.resolveOverload r.type r.method args
  return (asked, args, nonLocals)

/-- Runs the method that was selected. -/
def runSelected (run : Runner Storage) (entry : MethodHandle) (args : List Value) (nonLocals : List (Variable Value)) :
    Serving (Answer Value) := do
  let receiver ← if entry.decl.isStatic then pure none else some <$> host.construct run r.type
  if r.mode = .normal then
    Transfer.apply host run receiver nonLocals
    let result ← Host.invokeHandle run entry receiver args
    let (nonLocals, outcome) ← Transfer.refresh host run receiver nonLocals
    Run.ofExcept outcome
    return .completed result nonLocals
  else return .completed (← Host.invokeHandle run entry receiver args) []

/-- A server selects the method before it runs anything. -/
theorem invoke_eq (run : Runner Storage) : invoke r host run = (do
    let (asked, args, nonLocals) ← ask r host
    let (entry, args) ← entryPoint r host asked args
    runSelected r host run entry args nonLocals) := by
  simp only [invoke, ask, runSelected, bind_assoc, pure_bind]

/-- When the type is there, asking only adds the objects of arguments and state. -/
theorem ask_eq {s : Server} {owner : TypeHandle} (htype : s.domain.type? r.type = some owner) :
    ∃ nonLocals h, (Heap.instantiateItems r.arguments s.domain.heap).2.Extends h ∧
      ask r host s = match { s.domain with heap := h }.meant? owner r.type r.method
          (Heap.instantiateItems r.arguments s.domain.heap).1 with
        | some asked =>
          some (.ok (asked, (Heap.instantiateItems r.arguments s.domain.heap).1, nonLocals), s.withHeap h)
        | none => some (.error (Host.overloadMissing h r.type r.method
            (Heap.instantiateItems r.arguments s.domain.heap).1 owner.module.name), s.withHeap h) := by
  obtain ⟨nonLocals, h, hext, hvariables⟩ := State.mapM_instantiate_variables r.nonLocals
    (s.withHeap (Heap.instantiateItems r.arguments s.domain.heap).2)
  refine ⟨nonLocals, h, hext, ?_⟩
  rw [ask, Run.bind_apply, State.mapM_instantiate]
  simp only [Run.bind_apply, hvariables, State.withHeap_withHeap]
  rw [Host.resolveOverload_found (s := s.withHeap h) htype]
  unfold State.withHeap
  cases { s.domain with heap := h }.meant? owner r.type r.method
    (Heap.instantiateItems r.arguments s.domain.heap).1 <;> rfl

/-- In normal mode a method is run itself, unless it is marked and has a sibling on record. -/
theorem entryPoint_undirected {asked : MethodHandle} (hmode : r.mode = .normal)
    (hnone : asked.decl.flags.has MethodFlags.relayEntry = true → asked.decl.relayBody = none) (args : List Value) :
    entryPoint r host asked args = pure (asked, args) := by
  cases hbody : asked.decl.relayBody with
  | none => simp only [entryPoint, hbody]
  | some name =>
    have hunmarked : asked.decl.flags.has MethodFlags.relayEntry = false :=
      Bool.eq_false_iff.mpr fun hmarked => by simp [hnone hmarked] at hbody
    simp only [entryPoint, hbody, hunmarked, hmode, ne_eq, not_true_eq_false, decide_false, Bool.or_false,
      Bool.not_false, if_true]

theorem entryPoint_moved {asked : MethodHandle} {args : List Value} {s : Server} {name : String}
    {sibling : MethodDecl Value} (hbody : asked.decl.relayBody = some name) (hmode : r.mode ≠ .normal)
    (htype : s.domain.type? r.type = some ⟨asked.module, asked.owner⟩)
    (hsibling : asked.owner.method? name (asked.decl.paramTypes ++ [TypeName.boolean]) = some sibling)
    (hlength : args.length ≤ asked.decl.params.length) : entryPoint r host asked args s =
      some (.ok (⟨asked.module, asked.owner, sibling⟩, args ++ [.bool true]), s) := by
  simp only [entryPoint, hbody, hmode, ne_eq, not_false_eq_true, decide_true, Bool.or_true, Bool.not_true,
    Bool.false_eq_true, if_false, Run.bind_apply, Host.resolveLocal_found htype, TypeHandle.method?, hsibling, Option.map_some,
    List.take_of_length_le hlength]
  rfl

end Server

/-! ## Siblings as they are loaded -/

/-- Siblings have other names than the methods, in whatever form these are. -/
theorem TypeDecl.Grown.new_main {α : Type} [Literal α] {client : String} {P : Nat → Prop} {t : TypeDecl α}
    {main siblings : List (MethodDecl α)} (h : Grown client P t main siblings) {s : MethodDecl α}
    (hs : s ∈ siblings) : ∀ e ∈ main, s.name ≠ e.name := by
  intro e he
  obtain ⟨k, hk⟩ := List.mem_iff_getElem?.mp he
  have hlt : k < t.methods.length := h.length ▸ (List.getElem?_eq_some_iff.mp hk).1
  obtain ⟨e', he', hname⟩ := h.name (List.getElem?_eq_getElem hlt)
  cases hk.symm.trans he'
  rw [hname]
  exact h.new s hs _ (List.getElem_mem hlt)

/-- A relayed or replayed method and its sibling as a deployed module has them when it is loaded. -/
structure Target.LoadedIn (t : Target Datum) (client : String) (l : LoadedModule) (u : TypeDecl Value)
    (e s : MethodDecl Value) : Prop where
  type : u.fullName = t.type.fullName
  params : e.params.map ParamDecl.shape = t.method.params.map ParamDecl.shape
  relayBody : e.relayBody = some (relayBodyName t.method.name)
  sibling : u.method? (relayBodyName t.method.name) (t.method.paramTypes ++ [TypeName.boolean]) = some s
  shape : s.shape = (t.method.relaySibling (t.method.callSite client t.type.fullName)).shape
  movable : t.method.Movable

section Deployed
variable {boundary : Boundary} {digest : DigestAlgorithm} {m n : Module Datum} {dependencies : List (Module Datum)}
  {dep : Deployment} (hmake : Deployment.make? boundary digest m dependencies = .ok (some dep))
  (hn : n = dep.client ∨ n = dep.server) {l : LoadedModule} (hl : l.code.shape = n.shape)
include hmake hn hl

/-- The shape of a type of a deployed module is that of its grown form. -/
theorem Deployment.loadedGrown {i : Nat} {t : TypeDecl Datum} {u : TypeDecl Value} (ht : m.types[i]? = some t)
    (hu : l.code.types[i]? = some u) : ∃ main siblings,
      u.shape = ({ t with methods := main ++ siblings } : TypeDecl Datum).shape ∧
      TypeDecl.Grown boundary.clientType (fun k => (i, k) ∈ m.targets.map Target.position) t main siblings := by
  have hrel := (grown hmake hn).types i
  obtain ⟨u', hu', hshape⟩ := Module.types_getElem? hl hu
  rw [ht, hu'] at hrel
  cases hrel with
  | some h =>
    obtain ⟨main, siblings, rfl, hgrown⟩ := h
    exact ⟨main, siblings, hshape, hgrown⟩

variable {t : Target Datum} (ht : t ∈ m.targets) {u : TypeDecl Value} (hu : l.code.types[t.typeIndex]? = some u)
  {e : MethodDecl Value} (he : u.methods[t.methodIndex]? = some e)
include ht hu he

/-- In the place of a target stands its mobile form, perhaps marked. -/
theorem Deployment.loadedMain : u.fullName = t.type.fullName ∧ t.method.Movable ∧ ∃ closure e₀,
    (t.method.mobileForm boundary.clientType t.type.fullName closure).Marks e₀ ∧ e.shape = e₀.shape := by
  obtain ⟨⟨htype, hmethod⟩, _⟩ := Module.mem_targets.mp ht
  obtain ⟨main, siblings, hushape, hgrown⟩ := loadedGrown hmake hn hl htype hu
  obtain ⟨hmovable, closure, e₀, he₀, hmarks⟩ := hgrown.moved hmethod (List.mem_map_of_mem ht)
  have hlt : t.methodIndex < main.length := (List.getElem?_eq_some_iff.mp he₀).1
  obtain ⟨e', he', heshape⟩ := TypeDecl.methods_getElem? hushape he
  cases ((List.getElem?_append_left hlt).trans he₀).symm.trans he'
  exact ⟨(TypeDecl.fullName_eq hushape).trans rfl, hmovable, closure, e₀, hmarks, heshape⟩

theorem Deployment.loadedIn (hmode : t.mobility.mode ≠ .normal) : ∃ s, t.LoadedIn boundary.clientType l u e s := by
  obtain ⟨⟨htype, hmethod⟩, _⟩ := Module.mem_targets.mp ht
  obtain ⟨hname, hmovable, closure, e₀, hmarks, heshape⟩ := loadedMain hmake hn hl ht hu he
  obtain ⟨main, siblings, hushape, hgrown⟩ := loadedGrown hmake hn hl htype hu
  obtain ⟨_, hsibling, _⟩ := hgrown.stub hmethod (List.mem_map_of_mem ht) hmode
  rw [MethodDecl.mobileForm_moved hmode] at hmarks
  have hfound := TypeDecl.method?_sibling (t := { t.type with methods := main ++ siblings }) rfl hgrown.distinct
    hsibling (hgrown.new_main hsibling)
  obtain ⟨s, hs, hshape⟩ := TypeDecl.method?_eq hushape.symm hfound
  refine ⟨s, hname, ?_, ?_, ?_, hshape.symm, hmovable⟩
  · have hparams : e.params.map ParamDecl.shape = e₀.params.map ParamDecl.shape := congrArg MethodDecl.params heshape
    rw [hparams]
    obtain rfl | ⟨_, rfl⟩ := hmarks <;> rfl
  · have hbody : e.relayBody = e₀.relayBody := congrArg MethodDecl.relayBody heshape
    rw [hbody]
    obtain rfl | ⟨_, rfl⟩ := hmarks <;> rfl
  · simpa [MethodDecl.relaySibling, MethodDecl.paramTypes, relayMarker] using hs

end Deployed

/-! ## Frames of siblings -/

/-- Only a literal is more than its shape. -/
theorem Instruction.eq_of_shape {i j : Instruction Value} (h : i.shape = j.shape) (hj : ∀ x, j ≠ .const x) : i = j := by
  have hback {k : Instruction Value} (hk : ∀ x, k ≠ .const x) :
      Id.run (k.shape.traverse fun _ => pure Value.null) = k := by
    cases k with
    | const x => exact absurd rfl (hk x)
    | _ => rfl
  have hi : ∀ x, i ≠ .const x := by
    rintro x rfl
    cases j with
    | const y => exact hj y rfl
    | _ => exact nomatch h
  rw [← hback hi, h, hback hj]

theorem eq_append_of_shape {front body : List (Instruction Value)} {tail : List (Instruction Datum)}
    (hfront : ∀ i ∈ front, ∀ x, i ≠ .const x)
    (h : body.map Instruction.shape = front.map Instruction.shape ++ tail) :
    ∃ rest, body = front ++ rest ∧ rest.map Instruction.shape = tail := by
  induction front generalizing body with
  | nil => exact ⟨body, rfl, h⟩
  | cons i front ih =>
    obtain ⟨j, body', rfl, hj, hbody⟩ := List.map_eq_cons_iff.mp h
    obtain ⟨rest, rfl, hrest⟩ := ih (fun k hk => hfront k (List.mem_cons_of_mem i hk)) hbody
    rw [Instruction.eq_of_shape hj (hfront i List.mem_cons_self)]
    exact ⟨rest, rfl, hrest⟩

theorem DispatchSite.relayFront_shape (site : DispatchSite) :
    (site.relayFront : List (Instruction Datum)).map Instruction.shape =
      (site.relayFront : List (Instruction Value)).map Instruction.shape := by
  unfold relayFront
  split <;> rfl

theorem DispatchSite.not_const_of_mem_relayFront {site : DispatchSite} :
    ∀ i ∈ (site.relayFront : List (Instruction Value)), ∀ x, i ≠ .const x := by
  unfold relayFront
  split <;> simp

theorem ParamDecl.default_isSome {p : ParamDecl Value} {q : ParamDecl Datum} (h : p.shape = q.shape) :
    p.default.isSome = q.default.isSome := by
  have hdefault : p.default.map Sketched.sketch = q.default.map Sketched.sketch := congrArg ParamDecl.default h
  simpa using congrArg Option.isSome hdefault

namespace Frame

/-- Parameters that all have defaults are bound to these. -/
theorem mapM_defaultOf (key : MethodKey) {ps : List (ParamDecl Value)} (h : ∀ p ∈ ps, p.default.isSome = true) :
    ∃ vs, ps.mapM (defaultOf key) = .ok vs ∧ ps.map (·.default) = vs.map some := by
  induction ps with
  | nil => exact ⟨[], rfl, rfl⟩
  | cons p ps ih =>
    obtain ⟨v, hv⟩ := Option.isSome_iff_exists.mp (h p List.mem_cons_self)
    obtain ⟨vs, hvs, hdefaults⟩ := ih fun q hq => h q (List.mem_cons_of_mem p hq)
    refine ⟨v :: vs, ?_, by rw [List.map_cons, List.map_cons, hv, hdefaults]⟩
    rw [List.mapM_cons, hvs]
    simp only [defaultOf, hv]
    rfl

/-- Behind the given arguments stand the defaults of the parameters that got none. -/
theorem bindArguments_ok {m : MethodHandle} {args : List Value} (hlength : args.length ≤ m.decl.params.length)
    (h : ∀ p ∈ m.decl.params.drop args.length, p.default.isSome = true) : ∃ rest,
      bindArguments m args = .ok (args ++ rest) ∧ (m.decl.params.drop args.length).map (·.default) = rest.map some := by
  obtain ⟨rest, hrest, hdefaults⟩ := mapM_defaultOf m.key h
  refine ⟨rest, ?_, hdefaults⟩
  rw [bindArguments_eq, if_neg (Nat.not_lt.mpr hlength), hrest]
  rfl

end Frame

namespace Machine
variable {ω : Type} {env : Environment ω}

/-- The marker says where a frame of a sibling goes. -/
theorem run_marked {f : Frame} {count : UInt16} {target : UInt64} {marked : Bool} (hpos : f.position = 0)
    (hload : f.method.decl.body[0]? = some (.loadArg count))
    (hjump : f.method.decl.body[1]? = some (.jumpIfTrue target))
    (hmarker : f.args[count.toNat]? = some (.bool marked)) (below : List Frame) (budget : Nat) (s : State ω) :
    run env (budget + 2) f below s =
      run env budget { f with position := if marked then target.toNat else 2 } below s := by
  obtain ⟨method, receiver, args, locals, stack, position, depth, constructs⟩ := f
  simp only at hpos hload hjump hmarker
  subst hpos
  rw [run, step_eq _ below hload]
  simp only [execute, hmarker, Run.pure_apply, Frame.push]
  rw [run, step_eq _ below hjump]
  cases marked <;> rfl

/-- Where no client is installed, a relayed call without the marker comes back at once. -/
theorem run_unmarked {f : Frame} {site : DispatchSite} {rest : List (Instruction Value)} (hpos : f.position = 2)
    (hmode : site.mode = .relay) (hbody : f.method.decl.body = site.relayFront ++ rest)
    (hvoid : f.method.decl.isVoid = true) (hfree : env.dispatcher? site.client.fullName = none)
    (hconstructs : f.constructs = none) (budget : Nat) (s : State ω) :
    run env (budget + 4) f [] s = some (.ok .null, s) := by
  obtain ⟨method, receiver, args, locals, stack, position, depth, constructs⟩ := f
  simp only at hpos hbody hvoid hconstructs
  subst hpos hconstructs
  simp only [DispatchSite.relayFront, hmode] at hbody
  rw [run, step_eq (i := .dispatch site) _ [] (by rw [hbody]; rfl)]
  simp only [execute, dispatch, hfree, Run.bind_apply, Run.pure_apply, Frame.push]
  rw [run, step_eq (i := .pop) _ [] (by simp only [hbody]; rfl)]
  simp only [execute, Frame.pop, Run.ofExcept_ok, Run.bind_apply, Run.pure_apply]
  rw [run, step_eq (i := .pop) _ [] (by simp only [hbody]; rfl)]
  simp only [execute, Frame.pop, Run.ofExcept_ok, Run.bind_apply, Run.pure_apply]
  rw [run, step_eq (i := .ret) _ [] (by simp only [hbody]; rfl)]
  simp only [execute, hvoid, if_true]
  rfl

end Machine

/-! ## Relayed and replayed methods -/

namespace Target.LoadedIn
variable {t : Target Datum} {client : String} {l : LoadedModule} {u : TypeDecl Value} {e sibling : MethodDecl Value}
  (h : t.LoadedIn client l u e sibling)
include h

theorem length_params : e.params.length = t.method.params.length := by
  simpa using congrArg List.length h.params

theorem paramTypes : e.paramTypes = t.method.paramTypes := by
  have hparams := congrArg (List.map ParamDecl.type) h.params
  rw [List.map_map, List.map_map] at hparams
  exact hparams

theorem sibling_params : sibling.params.map ParamDecl.shape =
    t.method.params.map ParamDecl.shape ++ [(relayMarker : ParamDecl Datum).shape] := by
  have hparams : sibling.params.map ParamDecl.shape = _ := congrArg MethodDecl.params h.shape
  rw [hparams]
  simp [MethodDecl.shape, MethodDecl.relaySibling]

theorem length_sibling_params : sibling.params.length = t.method.params.length + 1 := by
  simpa using congrArg List.length h.sibling_params

/-- The marker is not set by default. -/
theorem marker : ∃ p, sibling.params[t.method.params.length]? = some p ∧ p.default = some (.bool false) := by
  have hlast : (sibling.params.map ParamDecl.shape)[t.method.params.length]? =
      some (relayMarker : ParamDecl Datum).shape := by
    rw [h.sibling_params, List.getElem?_append_right (by simp)]
    simp
  rw [List.getElem?_map, Option.map_eq_some_iff] at hlast
  obtain ⟨p, hp, hshape⟩ := hlast
  have hdefault : p.default.map Sketched.sketch = some (.bool false) := congrArg ParamDecl.default hshape
  obtain ⟨v, hv, hsketch⟩ := Option.map_eq_some_iff.mp hdefault
  exact ⟨p, hp, hv.trans (congrArg some (Value.eq_bool_of_sketch hsketch))⟩

/-- If all parameters that get no argument are optional, those of the sibling are as well. -/
theorem optional {k : Nat} (hk : ∀ p ∈ t.method.params.drop k, p.default.isSome = true) :
    ∀ p ∈ sibling.params.drop k, p.default.isSome = true := by
  intro p hp
  obtain ⟨i, hi⟩ := List.mem_iff_getElem?.mp hp
  rw [List.getElem?_drop] at hi
  have hshape : (sibling.params.map ParamDecl.shape)[k + i]? = some p.shape := by
    rw [List.getElem?_map, hi]
    rfl
  rw [h.sibling_params, ← List.map_singleton, ← List.map_append, List.getElem?_map, Option.map_eq_some_iff] at hshape
  obtain ⟨q, hq, hpq⟩ := hshape
  rw [ParamDecl.default_isSome hpq.symm]
  rw [List.getElem?_append] at hq
  split at hq
  · exact hk q (List.mem_iff_getElem?.mpr ⟨i, by rw [List.getElem?_drop, hq]⟩)
  · obtain rfl := List.mem_singleton.mp (List.mem_of_getElem? hq)
    rfl

theorem body : ∃ rest, sibling.body = (t.method.callSite client t.type.fullName).relayFront ++ rest ∧
    rest.map Instruction.shape = (t.method.body.map (·.shift (UInt64.ofNat
      ((t.method.callSite client t.type.fullName).relayFront : List (Instruction Datum)).length))).map
        Instruction.shape := by
  have hbody : sibling.body.map Instruction.shape = _ := congrArg MethodDecl.body h.shape
  refine eq_append_of_shape DispatchSite.not_const_of_mem_relayFront (hbody.trans ?_)
  rw [← DispatchSite.relayFront_shape, ← List.map_append]
  rfl

end Target.LoadedIn

/-- The frame of a sibling that was called with the marker behind some arguments. -/
structure Frame.CalledMarked (f : Frame) (t : Target Datum) (client : String) (args : List Value) : Prop where
  /-- Behind the front stands the moved body. -/
  body : ∃ rest, f.method.decl.body = (t.method.callSite client t.type.fullName).relayFront ++ rest ∧
    rest.map Instruction.shape = (t.method.body.map (·.shift (UInt64.ofNat
      ((t.method.callSite client t.type.fullName).relayFront : List (Instruction Datum)).length))).map Instruction.shape
  void : f.method.decl.isVoid = true
  fresh : f.position = 0 ∧ f.stack = [] ∧ f.constructs = none
  /-- Behind the given arguments stands the marker, and then the defaults of all other parameters. -/
  given : f.args.take (args.length + 1) = args ++ [.bool true]
  defaults : (f.method.decl.params.drop (args.length + 1)).map (·.default) =
    (f.args.drop (args.length + 1)).map some
  /-- In the place of the marker stands the marker or its default. -/
  marker : f.args[t.method.params.length]? = some (.bool (args.length = t.method.params.length))

theorem Target.LoadedIn.enter {t : Target Datum} {client : String} {l : LoadedModule} {u : TypeDecl Value}
    {e sibling : MethodDecl Value} (h : t.LoadedIn client l u e sibling) (hmode : t.mobility.mode ≠ .normal)
    {args : List Value} (hlength : args.length ≤ t.method.params.length)
    (hoptional : ∀ p ∈ t.method.params.drop args.length, p.default.isSome = true) {limit : Nat} (hroom : 0 < limit) :
    ∃ f, Frame.enter limit 0 ⟨l, u, sibling⟩ none (args ++ [.bool true]) = .ok f ∧ f.CalledMarked t client args := by
  have hstatic : sibling.isStatic = true :=
    (MethodDecl.isStatic_eq h.shape).trans ((MethodDecl.relaySibling_isStatic _).trans (h.movable.static hmode))
  have hvoid : sibling.isVoid = true := (MethodDecl.isVoid_eq h.shape).trans (h.movable.void hmode)
  have hfits : (args ++ [Value.bool true]).length ≤ sibling.params.length := by
    rw [h.length_sibling_params, List.length_append]
    exact Nat.succ_le_succ hlength
  have hrest : ∀ p ∈ sibling.params.drop (args ++ [Value.bool true]).length, p.default.isSome = true := by
    refine h.optional fun p hp => hoptional p ?_
    rw [List.length_append, ← List.drop_drop] at hp
    exact List.mem_of_mem_drop hp
  obtain ⟨rest, hbound, hdefaults⟩ := Frame.bindArguments_ok (m := ⟨l, u, sibling⟩) hfits hrest
  have hplace : (args ++ [Value.bool true]).length = args.length + 1 := List.length_append
  rw [hplace] at hdefaults
  refine ⟨_, Frame.enter_static hroom hbound hstatic none, h.body, hvoid, ⟨rfl, rfl, rfl⟩, ?_, ?_, ?_⟩
  · exact List.take_left' hplace
  · show _ = ((args ++ [Value.bool true] ++ rest).drop (args.length + 1)).map some
    rw [List.drop_left' hplace]
    exact hdefaults
  · -- the marker's place is the one behind the arguments, or the last of those that get defaults
    show (args ++ [Value.bool true] ++ rest)[t.method.params.length]? = _
    by_cases hall : args.length = t.method.params.length
    · rw [List.append_assoc, List.getElem?_append_right (Nat.le_of_eq hall), hall, Nat.sub_self]
      simp
    · obtain ⟨p, hp, hp'⟩ := h.marker
      have hlt : args.length + 1 ≤ t.method.params.length := Nat.lt_of_le_of_ne hlength hall
      have hlast : ((sibling.params.drop (args.length + 1)).map (·.default))[t.method.params.length -
          (args.length + 1)]? = some (some (.bool false)) := by
        rw [List.getElem?_map, List.getElem?_drop, Nat.add_sub_cancel' hlt, hp, Option.map_some, hp']
      rw [List.getElem?_append_right (hplace ▸ hlt), hplace]
      rw [hdefaults, List.getElem?_map, Option.map_eq_some_iff] at hlast
      obtain ⟨v, hv, hsome⟩ := hlast
      rw [hv, Option.some.inj hsome]
      simp [hall]

namespace Frame.CalledMarked
variable {f : Frame} {t : Target Datum} {client : String} {args : List Value} (h : f.CalledMarked t client args)
include h

/-- Only when all arguments were given the run goes on with the moved body, and else with the dispatch. -/
theorem run {ω : Type} {env : Environment ω} (hmovable : t.method.Movable) (budget : Nat) (s : State ω) :
    Machine.run env (budget + 2) f [] s = Machine.run env budget { f with
      position := if args.length = t.method.params.length
        then ((t.method.callSite client t.type.fullName).relayFront : List (Instruction Datum)).length
        else 2 } [] s := by
  have hcount : (t.method.callSite client t.type.fullName).paramCount.toNat = t.method.params.length :=
    MethodDecl.callSite_count hmovable
  have hmarker : f.args[(t.method.callSite client t.type.fullName).paramCount.toNat]? =
      some (.bool (args.length = t.method.params.length)) := hcount.symm ▸ h.marker
  obtain ⟨rest, hbody, _⟩ := h.body
  unfold DispatchSite.relayFront at hbody ⊢
  split at hbody
  all_goals
    rw [Machine.run_marked h.fresh.1 (by rw [hbody]; rfl) (by rw [hbody]; rfl) hmarker]
    simp only [decide_eq_true_eq]
    rfl

/-- A relayed call in which an argument was left out runs nothing where no client is installed. -/
theorem run_nothing {ω : Type} {env : Environment ω} (hmovable : t.method.Movable) (hmode : t.mobility.mode = .relay)
    (homitted : args.length ≠ t.method.params.length) (hfree : env.dispatcher? client = none) (budget : Nat)
    (s : State ω) : Machine.run env (budget + 6) f [] s = some (.ok .null, s) := by
  obtain ⟨rest, hbody, _⟩ := h.body
  rw [h.run hmovable (budget + 4) s, if_neg homitted]
  exact Machine.run_unmarked (f := { f with position := 2 }) rfl hmode hbody h.void hfree h.fresh.2.2 budget s

end Frame.CalledMarked

namespace Server

/-- For a relayed or replayed method a server runs the sibling, with the marker behind the arguments that
were given. The run comes to the moved body if all were given. If one was left out, the marker goes to the
first parameter without an argument and its own parameter gets the default, so the run comes to the
dispatch. -/
theorem invoke_moved {boundary : Boundary} {digest : DigestAlgorithm} {m n : Module Datum}
    {dependencies : List (Module Datum)} {dep : Deployment}
    (hmake : Deployment.make? boundary digest m dependencies = .ok (some dep)) (hn : n = dep.client ∨ n = dep.server)
    {t : Target Datum} (ht : t ∈ m.targets) (hmode : t.mobility.mode ≠ .normal) {r : Request Datum}
    (htype : r.type = t.type.fullName) (hasked : r.mode = t.mobility.mode) {host : Host Storage} {s s' : Server}
    {l : LoadedModule} (hs : s.domain.Has n l) (hroom : 0 < s.domain.maxDepth) {u : TypeDecl Value}
    {e : MethodDecl Value} (hu : l.code.types[t.typeIndex]? = some u) (he : u.methods[t.methodIndex]? = some e)
    {args : List Value} {nonLocals : List (Variable Value)}
    (hask : ask r host s = some (.ok (⟨l, u, e⟩, args, nonLocals), s'))
    (hlength : args.length ≤ t.method.params.length)
    (hoptional : ∀ p ∈ t.method.params.drop args.length, p.default.isSome = true) :
    ∃ f, f.CalledMarked t boundary.clientType args ∧
      (∀ run, invoke r host run s = (do return .completed (← run f) [] : Serving (Answer Value)) s') ∧
      ∀ env budget (s : Server), Machine.run env (budget + 2) f [] s = Machine.run env budget { f with
        position := if args.length = t.method.params.length then
          ((t.method.callSite boundary.clientType t.type.fullName).relayFront : List (Instruction Datum)).length
          else 2 } [] s ∧
        (t.mobility.mode = .relay → args.length ≠ t.method.params.length →
          env.dispatcher? boundary.clientType = none → Machine.run env (budget + 6) f [] s = some (.ok .null, s)) := by
  obtain ⟨sibling, hloaded⟩ := Deployment.loadedIn hmake hn hs.shape ht hu he hmode
  have hfound : s.domain.type? r.type = some ⟨l, u⟩ :=
    (htype.trans hloaded.type.symm) ▸ hs.types u (List.mem_of_getElem? hu)
  obtain ⟨_, h, _, hasks⟩ := ask_eq r host hfound
  obtain rfl : s' = s.withHeap h := by
    rw [hask] at hasks
    split at hasks
    · exact (Prod.mk.inj (Option.some.inj hasks)).2
    · exact nomatch (Prod.mk.inj (Option.some.inj hasks)).1
  obtain ⟨f, hf, hcalled⟩ := hloaded.enter hmode hlength hoptional hroom
  refine ⟨f, hcalled, fun run => ?_, fun env budget s => ⟨hcalled.run hloaded.movable budget s,
    fun hrelay homitted hfree => hcalled.run_nothing hloaded.movable hrelay homitted hfree budget s⟩⟩
  have hrmode : r.mode ≠ .normal := hasked ▸ hmode
  have hstatic : sibling.isStatic = true :=
    (MethodDecl.isStatic_eq hloaded.shape).trans
      ((MethodDecl.relaySibling_isStatic _).trans (hloaded.movable.static hmode))
  have hentry : entryPoint r host ⟨l, u, e⟩ args (s.withHeap h) =
      some (.ok (⟨l, u, sibling⟩, args ++ [.bool true]), s.withHeap h) :=
    entryPoint_moved r host hloaded.relayBody hrmode hfound (hloaded.paramTypes ▸ hloaded.sibling)
      (hloaded.length_params ▸ hlength)
  rw [invoke_eq, Run.bind_apply, hask]
  show (entryPoint r host ⟨l, u, e⟩ args >>= fun p => runSelected r host run p.1 p.2 nonLocals) (s.withHeap h) = _
  rw [Run.bind_apply, hentry]
  simp only [runSelected, hstatic, if_true, if_neg hrmode, pure_bind]
  rw [Run.bind_apply, Run.bind_apply, Host.invokeHandle_entered (s := s.withHeap h) hf]

end Server

/-- A module with a relayed method whose parameter is optional. -/
def journal : Module Datum where
  name := "Journal"
  types := [{
    space := "Ops"
    name := "Journal"
    fields := [⟨"marks", TypeName.int32, MemberFlags.static, none⟩]
    methods := [
      { name := constructorName, flags := MethodFlags.constructor, body := [.ret] },
      { name := "Mark", flags := MethodFlags.static, mobility := some { mode := .relay },
        params := [⟨"n", TypeName.int32, some (.int32 5)⟩],
        body := [.loadArg 0, .storeStatic ⟨⟨none, "Ops.Journal"⟩, "marks"⟩, .ret] }] }]

/-- A request for that method without an argument. -/
def markRequest : Request Datum where
  id := Uuid.ofNat 1
  mode := .relay
  file := "Journal"
  hash := ""
  type := "Ops.Journal"
  method := "Mark"

/-- The request is answered, but nothing was run. -/
theorem journal_unmarked : ∃ dep l d s, Deployment.make? {} .sha1 journal [] = .ok (some dep) ∧
    Domain.register { hostName := "server" } dep.server [] none = .ok (l, d) ∧
    ∀ budget, Server.invoke markRequest { thread := none, natives := Native.standard none }
      (Machine.runner { host := { thread := none, natives := Native.standard none } } (budget + 6)) ⟨d, default⟩ =
        some (.ok (.completed .null []), s) ∧
      (s.domain.statics.find? "Ops.Journal").bind (·.find? "marks") = some (.int32 0) := by
  obtain ⟨dep, l, d, s, u, e, hmake, hd, hu, he, hask, hroom, hmarks⟩ :
      ∃ dep l d s u e, Deployment.make? {} .sha1 journal [] = .ok (some dep) ∧
        Domain.register { hostName := "server" } dep.server [] none = .ok (l, d) ∧ l.code.types[0]? = some u ∧
        u.methods[1]? = some e ∧ Server.ask markRequest { thread := none, natives := Native.standard none }
          ⟨d, default⟩ = some (.ok (⟨l, u, e⟩, [], []), s) ∧ 0 < d.maxDepth ∧
        (s.domain.statics.find? "Ops.Journal").bind (·.find? "marks") = some (.int32 0) :=
    ⟨_, _, _, _, _, _, rfl, rfl, rfl, rfl, rfl, by decide, rfl⟩
  have htarget : (⟨0, 1, _, _⟩ : Target Datum) ∈ journal.targets := Module.mem_targets.mpr ⟨⟨rfl, rfl⟩, by decide⟩
  have hdistinct : (dep.server.types.map (·.fullName)).Nodup := by
    cases hmake
    decide +kernel
  obtain ⟨f, _, hinvoke, hrun⟩ := Server.invoke_moved hmake (.inr rfl) htarget (by decide) rfl rfl
    (.of_register rfl hdistinct hd) hroom hu he hask (by decide) (by decide)
  refine ⟨dep, l, d, s, hmake, hd, fun budget => ⟨?_, hmarks⟩⟩
  have hnothing := (hrun { host := { thread := none, natives := Native.standard none } } budget s).2 rfl (by decide) rfl
  rw [hinvoke, Run.bind_apply, Machine.runner, hnothing]
  rfl

end MobileCode
