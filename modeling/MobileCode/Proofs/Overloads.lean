import MobileCode.Proofs.References
import MobileCode.Proofs.Selection
import MobileCode.Service.Client

/-! # Overloads across hosts

A request carries the values of a call but not the signature of its method. Whether a method takes values
depends on their types only, and these are the same for a value, for the datum that travels and for the
value that becomes of it. So the server takes the first declared method of that name that takes the values.
-/
namespace MobileCode

/-! ## Methods that take data -/

/-- Null belongs to every type but the primitive ones. -/
def Datum.belongsTo (x : Datum) (declared : String) : Bool :=
  declared = TypeName.any ||
    match x with
    | .null => !TypeName.isPrimitive declared
    | x => x.typeName = declared

/-- Are there data enough and not too many, each of the declared type? -/
def MethodDecl.takes {α : Type} (d : MethodDecl α) (xs : List Datum) : Bool :=
  (d.params.takeWhile (·.default.isNone)).length ≤ xs.length && xs.length ≤ d.params.length &&
    (xs.zip d.params).all fun (x, p) => x.belongsTo p.type

namespace Heap

theorem matchesType_snapshot {h : Heap} {v : Value} {x : Datum} (hx : h.snapshot v = some x) (declared : String) :
    h.matchesType v declared = x.belongsTo declared := by
  unfold snapshot at hx
  cases v with
  | list items =>
    obtain ⟨xs, _, rfl⟩ := Option.map_eq_some_iff.mp hx
    rfl
  | object r =>
    simp only [snapshotUpTo, Option.bind_eq_bind, Option.bind_eq_some_iff, Option.pure_def, Option.some.injEq] at hx
    obtain ⟨o, ho, fields, _, rfl⟩ := hx
    simp only [matchesType, Datum.belongsTo, typeName, typeOf, ho, Datum.typeName, Option.map_some, Option.getD_some]
    rfl
  | _ =>
    cases hx
    rfl

theorem matchesType_instantiate (x : Datum) {h k : Heap} (hk : (instantiate x h).2.Extends k) (declared : String) :
    k.matchesType (instantiate x h).1 declared = x.belongsTo declared := by
  cases x with
  | object type fields =>
    have ho := hk _ _ ((get?_alloc (instantiateFields fields h).2 ⟨type, (instantiateFields fields h).1⟩ _).trans
      (if_pos rfl))
    simp only [matchesType, Datum.belongsTo, instantiate, typeName, typeOf, ho, Datum.typeName, Option.map_some,
      Option.getD_some]
    rfl
  | _ => rfl

theorem instantiateItems_matches (xs : List Datum) {h k : Heap} (hk : (instantiateItems xs h).2.Extends k) :
    List.Forall₂ (fun v x => ∀ declared, k.matchesType v declared = x.belongsTo declared)
      (instantiateItems xs h).1 xs := by
  induction xs generalizing h with
  | nil => exact .nil
  | cons x xs ih =>
    exact .cons (matchesType_instantiate x ((instantiateItems_grows xs _).trans hk)) (ih hk)

end Heap

theorem MethodDecl.takes_eq {α β : Type} [Sketched α] [Sketched β] {d : MethodDecl α} {e : MethodDecl β}
    (h : d.params.map ParamDecl.shape = e.params.map ParamDecl.shape) (xs : List Datum) : d.takes xs = e.takes xs := by
  have hshape {γ : Type} [Sketched γ] (d : MethodDecl γ) : d.takes xs =
      MethodDecl.takes { (default : MethodDecl Datum) with params := d.params.map ParamDecl.shape } xs := by
    simp [takes, List.takeWhile_map, List.zip_map_right, Function.comp_def, ParamDecl.shape]
  rw [hshape d, hshape e, h]

theorem Overload.accepts_eq {k : Heap} {args : List Value} {xs : List Datum}
    (h : List.Forall₂ (fun v x => ∀ declared, k.matchesType v declared = x.belongsTo declared) args xs) (type : String)
    (e : MethodDecl Value) : (Overload.ofMethod type e).accepts k args = e.takes xs := by
  have hall (ps : List (ParamDecl Value)) : ((args.zip ps).all fun q => k.matchesType q.1 q.2.type) =
      (xs.zip ps).all fun q => q.1.belongsTo q.2.type := by
    induction h generalizing ps with
    | nil => rfl
    | cons hv _ ih =>
      cases ps with
      | nil => rfl
      | cons p ps => simp only [List.zip_cons_cons, List.all_cons, hv, ih]
  simp only [accepts, required, ofMethod, MethodDecl.takes, h.length_eq]
  exact congrArg (_ && ·) (hall e.params)

/-! ## The first method that takes data -/

theorem flatMap_eq_of_unique {β γ : Type} {f : β → List γ} {xs : List β} (hnodup : xs.Nodup) {x : β} (hx : x ∈ xs)
    (h : ∀ y ∈ xs, y ≠ x → f y = []) : xs.flatMap f = f x := by
  obtain ⟨front, rest, rfl⟩ := List.append_of_mem hx
  rw [List.nodup_append] at hnodup
  obtain ⟨_, hrest, hdisjoint⟩ := hnodup
  have hfront : front.flatMap f = [] := List.flatMap_eq_nil_iff.mpr fun y hy =>
    h y (List.mem_append_left _ hy) (hdisjoint y hy x List.mem_cons_self)
  have hbehind : rest.flatMap f = [] := List.flatMap_eq_nil_iff.mpr fun y hy =>
    h y (List.mem_append_right _ (List.mem_cons_of_mem x hy)) fun he => (List.nodup_cons.mp hrest).1 (he ▸ hy)
  rw [List.flatMap_append, List.flatMap_cons, hfront, hbehind, List.append_nil, List.nil_append]

theorem DispatchTable.overloads_eq {m : Module Value} (hdistinct : (m.types.map (·.fullName)).Nodup)
    {u : TypeDecl Value} (hu : u ∈ m.types) (method : String) : (ofModule m).overloads u.fullName method =
      (u.methods.filter (·.name = method)).map (Overload.ofMethod u.fullName) := by
  rw [overloads_ofModule, List.filter_flatMap, flatMap_eq_of_unique (hdistinct.of_map _) hu]
  · rw [List.filter_map]
    congr 1
    refine List.filter_congr fun e _ => ?_
    simp only [Function.comp_apply, Overload.ofMethod, MethodDecl.key, Prod.mk.injEq, true_and]
  · intro t ht hne
    refine List.filter_eq_nil_iff.mpr fun o ho hkey => ?_
    obtain ⟨e, _, rfl⟩ := List.mem_map.mp ho
    exact hne (List.inj_on_of_nodup_map hdistinct ht hu (congrArg Prod.fst (of_decide_eq_true hkey)))

/-- By argument values a method is meant that has the name and the signature of the first overload that accepts them. -/
theorem Domain.Has.meant?_accepting {d : Domain} {m : Module Datum} {l : LoadedModule} (hd : d.Has m l)
    {u : TypeDecl Value} (hu : u ∈ l.code.types) (method : String) (args : List Value) :
    d.meant? ⟨l, u⟩ u.fullName method args =
      (u.methods.find? fun e => e.name = method && (Overload.ofMethod u.fullName e).accepts d.heap args).bind fun e =>
        (u.method? e.name e.paramTypes).map fun e => ⟨l, u, e⟩ := by
  have hresolve : (DispatchTable.ofModule l.code).resolve? d.heap u.fullName method args =
      (u.methods.find? fun e => e.name = method && (Overload.ofMethod u.fullName e).accepts d.heap args).map
        (Overload.ofMethod u.fullName) := by
    rw [DispatchTable.resolve?, DispatchTable.overloads_eq hd.distinct hu, List.find?_map, List.find?_filter]
    congr 2
    funext e
    rw [Function.comp_apply, Bool.decide_and, Bool.decide_eq_true, Bool.decide_eq_true]
  simp only [Domain.meant?, hd.table, Option.bind_eq_bind, Option.bind_some, hresolve, Option.bind_map]
  rfl

/-- By argument values the first method of that name is meant that takes them. -/
theorem Domain.Has.meant?_eq {d : Domain} {m : Module Datum} {l : LoadedModule} (hd : d.Has m l) {u : TypeDecl Value}
    (hu : u ∈ l.code.types) (method : String) {args : List Value} {xs : List Datum}
    (h : List.Forall₂ (fun v x => ∀ declared, d.heap.matchesType v declared = x.belongsTo declared) args xs) :
    d.meant? ⟨l, u⟩ u.fullName method args =
      (u.methods.find? fun e => e.name = method && e.takes xs).bind fun e =>
        (u.method? e.name e.paramTypes).map fun e => ⟨l, u, e⟩ := by
  rw [hd.meant?_accepting hu]
  simp only [Overload.accepts_eq h]

/-! ## Methods of deployed modules -/

/-- In whatever form, a method keeps its name and its parameters, and its record of a sibling unless it gets one. -/
theorem TypeDecl.Grown.declared {α : Type} [Literal α] {client : String} {P : Nat → Prop} {t : TypeDecl α}
    {main siblings : List (MethodDecl α)} (h : Grown client P t main siblings) {k : Nat} {d : MethodDecl α}
    (hd : t.methods[k]? = some d) : ∃ e, main[k]? = some e ∧ e.name = d.name ∧ e.params = d.params ∧
      (¬(P k ∧ d.manner.mode ≠ .normal) → e.relayBody = d.relayBody) := by
  by_cases hk : P k
  · obtain ⟨_, closure, e, he, hmarks⟩ := h.moved hd hk
    by_cases hn : d.manner.mode = .normal
    · rw [MethodDecl.mobileForm_normal hn] at hmarks
      obtain rfl | ⟨_, rfl⟩ := hmarks <;> exact ⟨_, he, rfl, rfl, fun _ => rfl⟩
    · rw [MethodDecl.mobileForm_moved hn] at hmarks
      obtain rfl | ⟨_, rfl⟩ := hmarks <;> exact ⟨_, he, rfl, rfl, fun hstays => absurd ⟨hk, hn⟩ hstays⟩
  · exact ⟨d, h.kept hd hk, rfl, rfl, fun _ => rfl⟩

/-- A method and what has become of it in a deployed module that is loaded. -/
structure MethodDecl.LoadedAs (d : MethodDecl Datum) (e : MethodDecl Value) : Prop where
  name : e.name = d.name
  params : e.params.map ParamDecl.shape = d.params.map ParamDecl.shape

theorem MethodDecl.LoadedAs.key {d : MethodDecl Datum} {e : MethodDecl Value} (h : d.LoadedAs e) (type : String) :
    e.key type = d.key type := by
  have htypes := congrArg (List.map ParamDecl.type) h.params
  rw [List.map_map, List.map_map] at htypes
  rw [MethodDecl.key, MethodDecl.key, h.name]
  exact congrArg (MethodKey.mk type d.name) htypes

section Deployed
variable {boundary : Boundary} {digest : DigestAlgorithm} {m n : Module Datum} {dependencies : List (Module Datum)}
  {dep : Deployment} (hmake : Deployment.make? boundary digest m dependencies = .ok (some dep))
  (hn : n = dep.client ∨ n = dep.server) {l : LoadedModule} (hl : l.code.shape = n.shape) {i : Nat} {t : TypeDecl Datum}
  {u : TypeDecl Value} (ht : m.types[i]? = some t) (hu : l.code.types[i]? = some u)
include hmake hn hl ht hu

omit hu in
theorem Deployment.loaded_type : ∃ u, l.code.types[i]? = some u := by
  have hrel := (grown hmake hn).types i
  rw [ht] at hrel
  cases hn : n.types[i]? with
  | none =>
    rw [hn] at hrel
    cases hrel
  | some u' =>
    obtain ⟨u, hu, _⟩ := Module.types_getElem? hl.symm hn
    exact ⟨u, hu⟩

/-- The methods of a type stand where they stood, and only siblings, with other names, are behind them. -/
theorem Deployment.loaded_methods : u.fullName = t.fullName ∧
    (∀ (k : Nat) (d : MethodDecl Datum), t.methods[k]? = some d → ∃ e, u.methods[k]? = some e ∧ d.LoadedAs e) ∧
    ∀ (k : Nat) (e : MethodDecl Value), u.methods[k]? = some e → (∃ d ∈ t.methods, e.name = d.name) →
      ∃ d, t.methods[k]? = some d ∧ d.LoadedAs e ∧
      (¬((i, k) ∈ m.targets.map Target.position ∧ d.manner.mode ≠ .normal) → e.relayBody = d.relayBody) := by
  obtain ⟨main, siblings, hushape, hgrown⟩ := loadedGrown hmake hn hl ht hu
  have hstands {k : Nat} {e₀ : MethodDecl Datum} (he₀ : main[k]? = some e₀) : (main ++ siblings)[k]? = some e₀ :=
    (List.getElem?_append_left (List.getElem?_eq_some_iff.mp he₀).1).trans he₀
  refine ⟨(TypeDecl.fullName_eq hushape).trans rfl, fun k d hd => ?_, fun k e he hnamed => ?_⟩
  · obtain ⟨e₀, he₀, hname, hparams, _⟩ := hgrown.declared hd
    obtain ⟨e, he, hshape⟩ := TypeDecl.methods_getElem? hushape.symm (hstands he₀)
    have hname' : e₀.name = e.name := congrArg MethodDecl.name hshape
    have hparams' : e₀.params.map ParamDecl.shape = e.params.map ParamDecl.shape := congrArg MethodDecl.params hshape
    exact ⟨e, he, hname'.symm.trans hname, hparams'.symm.trans (hparams ▸ rfl)⟩
  · obtain ⟨e₀, he₀, hshape⟩ := TypeDecl.methods_getElem? hushape he
    have hname' : e.name = e₀.name := congrArg MethodDecl.name hshape
    have hparams' : e.params.map ParamDecl.shape = e₀.params.map ParamDecl.shape := congrArg MethodDecl.params hshape
    have hrelay : e.relayBody = e₀.relayBody := congrArg MethodDecl.relayBody hshape
    by_cases hlt : k < main.length
    · have hkt : k < t.methods.length := hgrown.length ▸ hlt
      obtain ⟨e₁, he₁, hname, hparams, hstays⟩ := hgrown.declared (List.getElem?_eq_getElem hkt)
      cases (hstands he₁).symm.trans he₀
      exact ⟨_, List.getElem?_eq_getElem hkt, ⟨hname'.trans hname, hparams'.trans (hparams ▸ rfl)⟩,
        fun h => hrelay.trans (hstays h)⟩
    · rw [List.getElem?_append_right (Nat.le_of_not_lt hlt)] at he₀
      obtain ⟨d, hd, hsame⟩ := hnamed
      exact absurd (hname'.symm.trans hsame) (hgrown.new e₀ (List.mem_of_getElem? he₀) d hd)

/-- The first method of a name that takes data is the first one among the methods that were deployed. -/
theorem Deployment.find?_taking {method : String} {xs : List Datum} {j : Nat} {d : MethodDecl Datum}
    (hd : t.methods[j]? = some d) (hname : d.name = method) (htakes : d.takes xs = true)
    (hfirst : ∀ k < j, ∀ e : MethodDecl Datum, t.methods[k]? = some e → e.name = method → e.takes xs = false) :
    ∃ e, d.LoadedAs e ∧ u.methods.find? (fun e => e.name = method && e.takes xs) = some e := by
  obtain ⟨_, hloaded, _⟩ := loaded_methods hmake hn hl ht hu
  obtain ⟨e, he, heloaded⟩ := hloaded j d hd
  obtain ⟨hlt, rfl⟩ := List.getElem?_eq_some_iff.mp he
  refine ⟨_, heloaded, List.find?_eq_some_iff_getElem.mpr ⟨?_, j, hlt, rfl, fun k hk => ?_⟩⟩
  · rw [heloaded.name, MethodDecl.takes_eq heloaded.params, hname, htakes]
    simp
  · have hkt : k < t.methods.length := Nat.lt_trans hk (List.getElem?_eq_some_iff.mp hd).1
    obtain ⟨e', he', hloaded'⟩ := hloaded k _ (List.getElem?_eq_getElem hkt)
    obtain ⟨_, rfl⟩ := List.getElem?_eq_some_iff.mp he'
    rw [hloaded'.name, MethodDecl.takes_eq hloaded'.params, Bool.not_eq_true', Bool.and_eq_false_imp]
    exact fun h => hfirst k hk _ (List.getElem?_eq_getElem hkt) (of_decide_eq_true h)

end Deployed

/-! ## Requests as they travel -/

/-- What a request for a call says of the call, apart from the state. -/
theorem Client.request_eq {ν : Type} {c : Client ν} {host : Host (Reach ν)} {run : Runner (Reach ν)}
    {call : ServiceCall} {target : MethodHandle} {s s' : State (Reach ν)} {endpoint : String} {r : Request Value}
    (h : c.request host run call target s = some (.ok (endpoint, r), s')) : r.mode = call.mode ∧
      r.type = call.method.owner.fullName ∧ r.method = call.method.name ∧
      r.arguments = (target.decl.params.zip call.args).map (·.2) := by
  obtain ⟨mode, onMainThread, chosen, method, receiver, args⟩ := call
  cases mode <;> cases hclosure : target.decl.closure
  all_goals
    simp only [request, hclosure, Run.bind_eq_ok] at h
    obtain ⟨hash, _, _, nonLocals, _, _, e, _, _, id, _, _, hr⟩ := h
    cases hr
    exact ⟨rfl, rfl, rfl, by rw [Request.arguments, List.map_map]; rfl⟩

theorem Request.outward_eq {ω : Type} {h : Heap} {r : Request Value} {sent : Request Datum} {x y : ω}
    (hsent : (r.outward h : Run ω (Request Datum)) x = some (.ok sent, y)) : sent.mode = r.mode ∧ sent.type = r.type ∧
      sent.method = r.method ∧ List.Forall₂ (fun v z => h.snapshot v = some z) r.arguments sent.arguments := by
  have hall (ps : List (Variable Value)) {qs : List (Variable Datum)} {x y : ω}
      (hps : ps.mapM (·.traverse fun v => (Run.ofOption (h.snapshot v) : Run ω Datum)) x = some (.ok qs, y)) :
      List.Forall₂ (fun v z => h.snapshot v = some z) (ps.map (·.value)) (qs.map (·.value)) := by
    induction ps generalizing qs x y with
    | nil =>
      cases hps
      exact .nil
    | cons p ps ih =>
      simp only [List.mapM_cons, Run.bind_eq_ok, Variable.traverse] at hps
      obtain ⟨q, _, ⟨z, _, hz, hq⟩, rest, _, hrest, hqs⟩ := hps
      cases hqs
      cases hq
      refine .cons ?_ (ih hrest)
      cases hsnap : h.snapshot p.value with
      | none =>
        rw [hsnap] at hz
        cases hz
      | some _ =>
        rw [hsnap] at hz
        cases hz
        rfl
  simp only [outward, traverse, Run.bind_eq_ok] at hsent
  obtain ⟨params, _, hparams, nonLocals, _, _, hr⟩ := hsent
  cases hr
  exact ⟨rfl, rfl, rfl, hall r.params hparams⟩

theorem Host.resolveMethod_signature {ω : Type} {host : Host ω} {r : MethodRef} {s s' : State ω} {target : MethodHandle}
    (h : host.resolveMethod r s = some (.ok target, s')) : target.decl.paramTypes = r.paramTypes := by
  simp only [resolveMethod, Run.bind_eq_ok] at h
  obtain ⟨owner, _, _, h⟩ := h
  cases hfound : owner.method? r.name r.paramTypes with
  | none =>
    rw [hfound] at h
    cases h
  | some handle =>
    rw [hfound] at h
    cases h
    obtain ⟨d, hd, rfl⟩ := Option.map_eq_some_iff.mp hfound
    exact (TypeDecl.method?_eq_some hd).2.2

/-- Values that match the parameters of a method are taken by it when they have travelled. -/
theorem MethodDecl.takes_of_matches {d : MethodDecl Datum} {h : Heap} {args : List Value} {xs : List Datum}
    (hsnap : List.Forall₂ (fun v z => h.snapshot v = some z) args xs) (hlength : args.length = d.params.length)
    (hmatch : ∀ a ∈ args.zip d.params, h.matchesType a.1 a.2.type = true) : d.takes xs = true := by
  have hall (ps : List (ParamDecl Datum)) (hps : ∀ a ∈ args.zip ps, h.matchesType a.1 a.2.type = true) :
      (xs.zip ps).all (fun (x, p) => x.belongsTo p.type) = true := by
    clear hmatch hlength
    induction hsnap generalizing ps with
    | nil => rfl
    | cons hv _ ih =>
      cases ps with
      | nil => rfl
      | cons p ps =>
        rw [List.zip_cons_cons, List.all_cons, Bool.and_eq_true]
        refine ⟨?_, ih ps fun a ha => hps a (List.mem_cons_of_mem _ ha)⟩
        exact (Heap.matchesType_snapshot hv p.type).symm.trans (hps _ List.mem_cons_self)
  have hcount : xs.length = d.params.length := hsnap.length_eq.symm.trans hlength
  rw [takes, hcount, hall d.params hmatch]
  simp [(List.takeWhile_prefix (fun p : ParamDecl Datum => p.default.isNone)).length_le]

/-! ## What the server runs for a dispatched call -/

/-- The method that the record of another one names, with a marker behind its parameters. -/
structure MethodHandle.IsRelayBodyOf (entry asked : MethodHandle) : Prop where
  module : entry.module = asked.module
  owner : entry.owner = asked.owner
  named : asked.decl.relayBody = some entry.decl.name
  paramTypes : entry.decl.paramTypes = asked.decl.paramTypes ++ [TypeName.boolean]

namespace Server
variable {r : Request Datum} {host : Host Storage} {asked entry : MethodHandle} {args args' : List Value}
  {s s' : Server}

/-- The entry is the method that was asked for or the sibling that its record names. -/
theorem entryPoint_cases (htype : s.domain.type? r.type = some ⟨asked.module, asked.owner⟩)
    (h : entryPoint r host asked args s = some (.ok (entry, args'), s')) :
    entry = asked ∨ ∃ name sibling, asked.decl.relayBody = some name ∧
      asked.owner.method? name (asked.decl.paramTypes ++ [TypeName.boolean]) = some sibling ∧
      entry = ⟨asked.module, asked.owner, sibling⟩ := by
  have hfound : host.resolveLocal r.type s = some (.ok ⟨asked.module, asked.owner⟩, s) := Host.resolveLocal_found htype
  unfold entryPoint at h
  cases hbody : asked.decl.relayBody with
  | none =>
    simp only [hbody] at h
    cases h
    exact .inl rfl
  | some name =>
    simp only [hbody] at h
    split at h
    · cases h
      exact .inl rfl
    rw [Run.bind_apply, hfound] at h
    cases hsibling : asked.owner.method? name (asked.decl.paramTypes ++ [TypeName.boolean]) with
    | none =>
      simp only [TypeHandle.method?, hsibling] at h
      cases h
    | some sibling =>
      simp only [TypeHandle.method?, hsibling] at h
      cases h
      exact .inr ⟨name, sibling, rfl, hsibling, rfl⟩

/-- The entry is the method that was asked for or its relay body. -/
theorem entryPoint_eq_ok (htype : s.domain.type? r.type = some ⟨asked.module, asked.owner⟩)
    (h : entryPoint r host asked args s = some (.ok (entry, args'), s')) :
    entry = asked ∨ entry.IsRelayBodyOf asked := by
  rcases entryPoint_cases htype h with hsame | ⟨name, sibling, hbody, hsibling, rfl⟩
  · exact .inl hsame
  · obtain ⟨_, hname, htypes⟩ := TypeDecl.method?_eq_some hsibling
    exact .inr ⟨rfl, rfl, hbody.trans (congrArg some hname.symm), htypes⟩

theorem entryPoint_succeeds (htype : s.domain.type? r.type = some ⟨asked.module, asked.owner⟩)
    (h : ∀ name ∈ asked.decl.relayBody,
      asked.owner.method? name (asked.decl.paramTypes ++ [TypeName.boolean]) ≠ none) :
    ∃ p, entryPoint r host asked args s = some (.ok p, s) := by
  have hfound : host.resolveLocal r.type s = some (.ok ⟨asked.module, asked.owner⟩, s) := Host.resolveLocal_found htype
  unfold entryPoint
  cases hbody : asked.decl.relayBody with
  | none => exact ⟨_, rfl⟩
  | some name =>
    obtain ⟨sibling, hsibling⟩ := Option.ne_none_iff_exists'.mp (h name hbody)
    simp only
    split
    · exact ⟨_, rfl⟩
    · rw [Run.bind_apply, hfound]
      simp only [TypeHandle.method?, hsibling]
      exact ⟨_, rfl⟩

variable (host) in
/-- For a dispatched call the server runs the first declared method of that name that takes the values, or
its relay body. This is the dispatched method itself when none in front of it takes the values; it is
never one that stands behind. -/
theorem runs_first_taking {boundary : Boundary} {digest : DigestAlgorithm} {m n : Module Datum}
    {dependencies : List (Module Datum)} {dep : Deployment}
    (hmake : Deployment.make? boundary digest m dependencies = .ok (some dep)) (hn : n = dep.client ∨ n = dep.server)
    {t : Target Datum} (ht : t ∈ m.targets) {site : DispatchSite}
    (hsite : site = t.method.callSite boundary.clientType t.type.fullName)
    -- the request that a client builds for a dispatch of the method
    {ν : Type} {c : Client ν} {there : Host (Reach ν)} {run : Runner (Reach ν)} {receiver : Option Ref}
    {given : List Value} {x y z : State (Reach ν)} {target : MethodHandle} {endpoint : String} {built : Request Value}
    (hresolved : there.resolveMethod site.method x = some (.ok target, y))
    (hbuilt : c.request there run ⟨site.mode, site.onMainThread, none, site.method, receiver, given⟩ target y =
      some (.ok (endpoint, built), z))
    (hcount : given.length = t.method.params.length) {ω : Type} {heap : Heap} {a b : ω}
    (hmatch : ∀ v ∈ given.zip t.method.params, heap.matchesType v.1 v.2.type = true)
    (hsent : (built.outward heap : Run ω (Request Datum)) a = some (.ok r, b))
    -- a server that holds one of the deployed modules
    {l : LoadedModule} (hs : s.domain.Has n l) :
    ∃ j d, j ≤ t.methodIndex ∧ t.type.methods[j]? = some d ∧ d.name = t.method.name ∧ d.takes r.arguments = true ∧
      (∀ k < j, ∀ e, t.type.methods[k]? = some e → e.name = t.method.name → e.takes r.arguments = false) ∧
      ∃ asked args nonLocals s', ask r host s = some (.ok (asked, args, nonLocals), s') ∧ asked.module = l ∧
        asked.key = d.key t.type.fullName ∧
        (∀ entry args' s'', entryPoint r host asked args s' = some (.ok (entry, args'), s'') →
          entry = asked ∨ entry.IsRelayBodyOf asked) ∧
        ((∀ e ∈ t.type.methods, e.relayBody = none) → ∃ p, entryPoint r host asked args s' = some (.ok p, s')) := by
  obtain ⟨hstands, htarget⟩ := Module.mem_targets.mp ht
  obtain ⟨_, htype, hmethod, harguments⟩ := Client.request_eq hbuilt
  obtain ⟨_, htype', hmethod', hsnap⟩ := Request.outward_eq hsent
  subst hsite
  -- what travels is taken by the dispatched method
  have hparams : target.decl.params.length = given.length := by
    have htypes := congrArg List.length (Host.resolveMethod_signature hresolved)
    simp only [MethodDecl.paramTypes, List.length_map] at htypes
    exact htypes.trans ((List.length_map _).trans hcount.symm)
  rw [harguments, List.map_snd_zip (Nat.le_of_eq hparams.symm)] at hsnap
  have htakes : t.method.takes r.arguments = true := MethodDecl.takes_of_matches hsnap hcount hmatch
  -- the first method that takes it
  obtain ⟨d, hd⟩ : ∃ d, t.type.methods.find? (fun e => e.name = t.method.name && e.takes r.arguments) = some d := by
    refine Option.isSome_iff_exists.mp (List.find?_isSome.mpr ⟨t.method, List.mem_of_getElem? hstands.2, ?_⟩)
    simp [htakes]
  obtain ⟨hyes, j, hj, rfl, hbefore⟩ := List.find?_eq_some_iff_getElem.mp hd
  simp only [Bool.and_eq_true, decide_eq_true_eq] at hyes
  have hfirst : ∀ k < j, ∀ e, t.type.methods[k]? = some e → e.name = t.method.name →
      e.takes r.arguments = false := by
    intro k hk e he hname
    obtain ⟨_, rfl⟩ := List.getElem?_eq_some_iff.mp he
    have hno := hbefore k hk
    simpa [hname] using hno
  have hle : j ≤ t.methodIndex := by
    by_contra hlt
    have hno := hfirst t.methodIndex (Nat.lt_of_not_le hlt) t.method hstands.2 rfl
    exact absurd (htakes.symm.trans hno) (by decide)
  refine ⟨j, _, hle, List.getElem?_eq_getElem hj, hyes.1, hyes.2, hfirst, ?_⟩
  -- what has become of it on the server
  obtain ⟨u, hu⟩ := Deployment.loaded_type hmake hn hs.shape hstands.1
  obtain ⟨hname, _, horigin⟩ := Deployment.loaded_methods hmake hn hs.shape hstands.1 hu
  obtain ⟨e, heloaded, hefound⟩ := Deployment.find?_taking hmake hn hs.shape hstands.1 hu
    (List.getElem?_eq_getElem hj) hyes.1 hyes.2 hfirst
  have hmem := List.mem_of_getElem? hu
  have hrtype : r.type = u.fullName := htype'.trans (htype.trans hname.symm)
  have hfound : s.domain.type? r.type = some ⟨l, u⟩ := hrtype ▸ hs.types u hmem
  obtain ⟨e', he'⟩ : ∃ e', u.method? e.name e.paramTypes = some e' := by
    refine Option.isSome_iff_exists.mp (List.find?_isSome.mpr ⟨e, List.mem_of_find?_eq_some hefound, ?_⟩)
    simp [MethodDecl.hasSignature]
  obtain ⟨hmem', hname', htypes'⟩ := TypeDecl.method?_eq_some he'
  obtain ⟨nonLocals, h, hext, hask⟩ := ask_eq r host hfound
  rw [hrtype, hmethod', hmethod, (hs.withHeap h).meant?_eq hmem _ (Heap.instantiateItems_matches r.arguments hext),
    show (t.method.callSite boundary.clientType t.type.fullName).method.name = t.method.name from rfl, hefound,
    Option.bind_some, he'] at hask
  refine ⟨⟨l, u, e'⟩, _, nonLocals, s.withHeap h, hask, rfl, ?_, fun entry args' s'' => entryPoint_eq_ok hfound,
    fun hnone => entryPoint_succeeds hfound fun name hbody => ?_⟩
  · have hkey : e'.key u.fullName = e.key u.fullName := by rw [MethodDecl.key, MethodDecl.key, hname', htypes']
    exact hkey.trans ((heloaded.key u.fullName).trans (hname ▸ rfl))
  · obtain ⟨k, hk⟩ := List.mem_iff_getElem?.mp hmem'
    obtain ⟨d', hd', hloaded', hstays⟩ := horigin k e' hk
      ⟨_, List.getElem_mem hj, hname'.trans heloaded.name⟩
    by_cases hmoved : (t.typeIndex, k) ∈ m.targets.map Target.position ∧ d'.manner.mode ≠ .normal
    · obtain ⟨⟨i', k', type', method'⟩, ht', hposition⟩ := List.mem_map.mp hmoved.1
      obtain ⟨hstands', _⟩ := Module.mem_targets.mp ht'
      obtain ⟨rfl, rfl⟩ := Prod.mk.inj hposition
      cases hstands.1.symm.trans hstands'.1
      cases hd'.symm.trans hstands'.2
      obtain ⟨sibling, hsibling⟩ := Deployment.loadedIn hmake hn hs.shape ht' hu hk hmoved.2
      cases hsibling.relayBody.symm.trans hbody
      rw [hsibling.paramTypes, hsibling.sibling]
      exact Option.some_ne_none _
    · have hnobody := (hstays hmoved).trans (hnone d' (List.mem_of_getElem? hd'))
      cases hnobody.symm.trans hbody

end Server

/-- A module with a mobile method behind one that takes any value. -/
def tariff : Module Datum where
  name := "Tariff"
  types := [{
    space := "Ops"
    name := "Tariff"
    methods := [
      { name := constructorName, flags := MethodFlags.constructor, body := [.ret] },
      { name := "Rate", flags := MethodFlags.static, returns := some TypeName.int32,
        params := [⟨"x", TypeName.any, none⟩], body := [.const (.int32 1), .ret] },
      { name := "Rate", flags := MethodFlags.static, returns := some TypeName.int32, mobility := some {},
        params := [⟨"x", TypeName.int32, none⟩], body := [.const (.int32 2), .ret] }] }]

def rate : MethodRef := ⟨⟨none, "Ops.Tariff"⟩, "Rate", [TypeName.int32]⟩

/-- A client that never gets to send. -/
def waiting : Client Unit where
  settings := { defaultEndpoint := some "server" }
  transport := { Channel := Unit, connect := fun _ => pure (), endpoint := fun _ => "", start := pure,
                 exchange := fun _ _ _ _ => pure .moduleUnknown, close := pure, abort := fun _ s => ((), s) }

def idle {ω : Type} : Environment ω where
  host := { thread := none, natives := Native.standard none }

/-- The request for a dispatch of the mobile method makes the server run the first method that takes the value. -/
theorem tariff_rates : ∃ dep l d target y built z r l' d', Deployment.make? {} .sha1 tariff [] = .ok (some dep) ∧
    Domain.register { hostName := "client" } dep.client [] none = .ok (l, d) ∧
    idle.host.resolveMethod rate (⟨d, { network := () }⟩ : State (Reach Unit)) = some (.ok target, y) ∧
    waiting.request idle.host (Machine.runner idle 0) ⟨.normal, false, none, rate, none, [.int32 7]⟩ target y =
      some (.ok ("server", built), z) ∧
    (built.outward z.domain.heap : Run Unit (Request Datum)) () = some (.ok r, ()) ∧
    Domain.register { hostName := "server" } dep.server [] none = .ok (l', d') ∧
    ∃ asked args nonLocals s, Server.ask r idle.host ⟨d', default⟩ = some (.ok (asked, args, nonLocals), s) ∧
      asked.module = l' ∧ asked.key = ⟨"Ops.Tariff", "Rate", [TypeName.any]⟩ ∧
      ∃ p, Server.entryPoint r idle.host asked args s = some (.ok p, s) := by
  have htarget : (⟨0, 2, _, _⟩ : Target Datum) ∈ tariff.targets := Module.mem_targets.mpr ⟨⟨rfl, rfl⟩, by decide⟩
  obtain ⟨dep, l, d, target, y, built, z, r, l', d', hmake, hd, hresolved, hbuilt, hsent, hd', harguments⟩ :
      ∃ dep l d target y built z r l' d', Deployment.make? {} .sha1 tariff [] = .ok (some dep) ∧
        Domain.register { hostName := "client" } dep.client [] none = .ok (l, d) ∧
        idle.host.resolveMethod rate (⟨d, { network := () }⟩ : State (Reach Unit)) = some (.ok target, y) ∧
        waiting.request idle.host (Machine.runner idle 0) ⟨.normal, false, none, rate, none, [.int32 7]⟩ target y =
          some (.ok ("server", built), z) ∧
        (built.outward z.domain.heap : Run Unit (Request Datum)) () = some (.ok r, ()) ∧
        Domain.register { hostName := "server" } dep.server [] none = .ok (l', d') ∧ r.arguments = [.int32 7] :=
    ⟨_, _, _, _, _, _, _, _, _, _, rfl, rfl, rfl, rfl, rfl, rfl, rfl⟩
  have hdistinct : (dep.server.types.map (·.fullName)).Nodup := by
    cases hmake
    decide +kernel
  obtain ⟨j, e, hj, he, hname, _, hfirst, asked, args, nonLocals, s, hask, hmodule, hkey, _, hentry⟩ :=
    Server.runs_first_taking idle.host (s := ⟨d', default⟩) hmake (.inr rfl) htarget rfl hresolved hbuilt rfl
      (by simp [Heap.matchesType, Heap.typeName, Heap.typeOf]) hsent (.of_register rfl hdistinct hd')
  refine ⟨dep, l, d, target, y, built, z, r, l', d', hmake, hd, hresolved, hbuilt, hsent, hd', asked, args, nonLocals,
    s, hask, hmodule, ?_, hentry (by simp)⟩
  obtain rfl | rfl | rfl : j = 0 ∨ j = 1 ∨ j = 2 := by
    change j ≤ 2 at hj
    omega
  · cases he
    exact absurd hname (by decide)
  · cases he
    exact hkey
  · have hnone := hfirst 1 (by decide) _ rfl rfl
    rw [harguments] at hnone
    exact absurd hnone (by decide)

/-- So it is not the dispatched method that is run. -/
theorem tariff_runs_another : ∃ t ∈ tariff.targets, ∃ dep l d target y built z r l' d' asked args nonLocals s,
    Deployment.make? {} .sha1 tariff [] = .ok (some dep) ∧
    Domain.register { hostName := "client" } dep.client [] none = .ok (l, d) ∧
    (t.method.callSite defaultClientType t.type.fullName).method = rate ∧
    idle.host.resolveMethod rate (⟨d, { network := () }⟩ : State (Reach Unit)) = some (.ok target, y) ∧
    target.key = t.method.key t.type.fullName ∧
    waiting.request idle.host (Machine.runner idle 0) ⟨.normal, false, none, rate, none, [.int32 7]⟩ target y =
      some (.ok ("server", built), z) ∧
    (built.outward z.domain.heap : Run Unit (Request Datum)) () = some (.ok r, ()) ∧
    Domain.register { hostName := "server" } dep.server [] none = .ok (l', d') ∧
    Server.ask r idle.host ⟨d', default⟩ = some (.ok (asked, args, nonLocals), s) ∧
    Server.entryPoint r idle.host asked args s = some (.ok (asked, args), s) ∧
    asked.key = ⟨"Ops.Tariff", "Rate", [TypeName.any]⟩ ∧ asked.key ≠ t.method.key t.type.fullName ∧
    t.method.relayBody = none := by
  refine ⟨⟨0, 2, _, _⟩, Module.mem_targets.mpr ⟨⟨rfl, rfl⟩, by decide⟩, ?_⟩
  exact ⟨_, _, _, _, _, _, _, _, _, _, _, _, _, _, rfl, rfl, rfl, rfl, rfl, rfl, rfl, rfl, rfl, rfl, rfl, by decide, rfl⟩

end MobileCode
