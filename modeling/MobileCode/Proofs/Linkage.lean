import MobileCode.Proofs.Invocations
import MobileCode.Proofs.Overloads
import MobileCode.Proofs.Validity

/-! # Links inside a deployed module

A dispatch names its method by type, name and parameter types, a stub names its sibling likewise, and the
record of a sibling gives the name only. Methods keep their signatures when they are made mobile and siblings
have names of their own, so all of these lead where they are meant to, whatever was made mobile besides.
-/
namespace MobileCode
variable {α : Type}

/-! ## Linked modules -/

/-- In the type `t` of the module the dispatch finds the mobile method `d`, which it describes. -/
structure DispatchSite.Means (site : DispatchSite) (n : Module α) (t : TypeDecl α) (d : MethodDecl α) : Prop where
  owner : n.type? site.method.owner.fullName = some t
  method : t.method? site.method.name site.method.paramTypes = some d
  mobilized : d.flags.has MethodFlags.mobilized = true
  closure : d.closure.isSome = true
  mobility : d.mobility = some ⟨site.mode, site.onMainThread⟩
  count : d.params.length = site.paramCount.toNat

/-- The method `e` hands its calls on to `s`, the only method of that name, which takes a marker besides. -/
structure MethodDecl.HandsOn [Literal α] (e : MethodDecl α) (n : Module α) (t : TypeDecl α) (name : String)
    (s : MethodDecl α) : Prop where
  alone : t.methodsNamed name = [s]
  marker : ∃ given p, s.params = given ++ [p] ∧ given.map (·.type) = e.paramTypes ∧ p.type = TypeName.boolean ∧
    p.default = some (Literal.bool false)
  calls : ∃ r, .call r ∈ e.body
  called : ∀ r, .call r ∈ e.body → n.type? r.owner.fullName = some t ∧ t.method? r.name r.paramTypes = some s

structure Module.Linked [Literal α] (n : Module α) : Prop where
  sites : ∀ t ∈ n.types, ∀ e ∈ t.methods, ∀ site, .dispatch site ∈ e.body → ∃ d, site.Means n t d
  siblings : ∀ t ∈ n.types, ∀ e ∈ t.methods, ∀ name, e.relayBody = some name → ∃ s, e.HandsOn n t name s

/-- Nothing in the module is mobile yet, and signatures tell its methods apart. -/
structure Module.Immobile (m : Module α) : Prop where
  quiet : ∀ t ∈ m.types, ∀ d ∈ t.methods, ∀ site, .dispatch site ∉ d.body
  unrelayed : ∀ t ∈ m.types, ∀ d ∈ t.methods, d.relayBody = none
  signatures : ∀ t ∈ m.types, (t.methods.map fun d => (d.name, d.paramTypes)).Nodup

/-- Some method of the module dispatches there. -/
def Module.Dispatches (n : Module α) (site : DispatchSite) : Prop :=
  ∃ t ∈ n.types, ∃ e ∈ t.methods, .dispatch site ∈ e.body

theorem TypeDecl.method?_of_mem {t : TypeDecl α} (h : (t.methods.map fun d => (d.name, d.paramTypes)).Nodup)
    {d : MethodDecl α} (hd : d ∈ t.methods) : t.method? d.name d.paramTypes = some d := by
  apply find?_eq_some_of_unique hd
  · simp [MethodDecl.hasSignature]
  · intro e he hsame
    simp only [MethodDecl.hasSignature, Bool.and_eq_true, decide_eq_true_eq] at hsame
    exact List.inj_on_of_nodup_map h he hd (Prod.ext hsame.1 hsame.2)

theorem Module.type?_of_mem {m : Module α} (h : (m.types.map (·.fullName)).Nodup) {t : TypeDecl α} (ht : t ∈ m.types) :
    m.type? t.fullName = some t := by
  apply find?_eq_some_of_unique ht
  · simp
  · intro u hu hname
    exact List.inj_on_of_nodup_map h hu ht (of_decide_eq_true hname)

/-- Of names without repetition each selects one element. -/
theorem filter_of_nodup {β : Type} {f : β → String} {xs : List β} (h : (xs.map f).Nodup) {x : β} (hx : x ∈ xs) :
    xs.filter (fun y => f y = f x) = [x] := by
  induction xs with
  | nil => cases hx
  | cons y ys ih =>
    rw [List.map_cons, List.nodup_cons] at h
    have hother : ∀ z ∈ ys, f z ≠ f y := fun z hz he => h.1 (he ▸ List.mem_map_of_mem hz)
    rcases List.mem_cons.mp hx with rfl | hx
    · have hnone : ys.filter (fun y => f y = f x) = [] := by
        apply List.filter_eq_nil_iff.mpr
        simpa using hother
      simp [hnone]
    · have hne : f y ≠ f x := fun he => hother x hx he.symm
      simp [hne, ih h.2 hx]

/-! ## Dispatches and records -/

namespace Instruction

theorem eq_dispatch_of_shift {i : Instruction α} {k : UInt64} {site : DispatchSite} (h : i.shift k = .dispatch site) :
    i = .dispatch site := by
  cases i <;> simp_all [shift]

end Instruction

/-- A body in which nothing is dispatched adds no dispatch to a front. -/
theorem dispatch_mem_inFrontOf {front body : List (Instruction α)} (hquiet : ∀ site, .dispatch site ∉ body)
    {site : DispatchSite} (h : .dispatch site ∈ inFrontOf front body) : .dispatch site ∈ front := by
  rcases List.mem_append.mp h with h | h
  · exact h
  · obtain ⟨i, hi, hshift⟩ := List.mem_map.mp h
    have hsite := Instruction.eq_dispatch_of_shift hshift
    exact absurd (hsite ▸ hi) (hquiet site)

namespace DispatchSite
variable {site given : DispatchSite}

theorem eq_of_mem_normalFront {isVoid : Bool}
    (h : .dispatch site ∈ (given.normalFront isVoid : List (Instruction α))) : site = given := by
  cases isVoid <;> simpa [normalFront] using h

theorem eq_of_mem_relayFront (h : .dispatch site ∈ (given.relayFront : List (Instruction α))) : site = given := by
  unfold relayFront at h
  split at h <;> simpa using h

end DispatchSite

namespace MethodDecl
variable [Literal α] {client type : String} {d e sibling : MethodDecl α}

theorem dispatch_not_mem_stubBody {site : DispatchSite} : .dispatch site ∉ d.stubBody type sibling := by
  simp [stubBody]

theorem call_mem_stubBody {r : MethodRef} : .call r ∈ d.stubBody type sibling ↔ r = sibling.reference ⟨none, type⟩ := by
  simp [stubBody]

/-- What the mobile form of a method says of it, marked or not. -/
structure Recorded (d e : MethodDecl α) : Prop where
  name : e.name = d.name
  params : e.params = d.params
  mobilized : e.flags.has MethodFlags.mobilized = true
  closure : e.closure.isSome = true
  mobility : e.mobility = some d.manner

omit [Literal α] in
theorem Recorded.marks {f : MethodDecl α} (h : d.Recorded e) (hmarks : e.Marks f) : d.Recorded f := by
  rcases hmarks with rfl | ⟨_, rfl⟩
  · exact h
  · have hflags : (e.flags ||| MethodFlags.relayEntry).has MethodFlags.mobilized = e.flags.has MethodFlags.mobilized :=
      Flags.has_union (by decide) e.flags
    exact { h with mobilized := hflags.trans h.mobilized }

theorem mobileForm_recorded (closure : Closure) : d.Recorded (d.mobileForm client type closure) := by
  have hmobilized : (d.mobileForm client type closure).flags.has MethodFlags.mobilized = true :=
    mobileForm_mobilized closure
  by_cases hmode : d.manner.mode = .normal
  · rw [mobileForm_normal hmode] at hmobilized ⊢
    exact ⟨rfl, rfl, hmobilized, rfl, rfl⟩
  · rw [mobileForm_moved hmode] at hmobilized ⊢
    exact ⟨rfl, rfl, hmobilized, rfl, rfl⟩

omit [Literal α] in
theorem Recorded.paramTypes (h : d.Recorded e) : e.paramTypes = d.paramTypes := by
  rw [MethodDecl.paramTypes, MethodDecl.paramTypes, h.params]

end MethodDecl

namespace TypeDecl.Grown
variable [Literal α] {client : String} {P : Nat → Prop} {t : TypeDecl α} {main siblings : List (MethodDecl α)}
  (h : Grown client P t main siblings)
include h

theorem recorded {k : Nat} {d : MethodDecl α} (hd : t.methods[k]? = some d) (hk : P k) :
    ∃ e, main[k]? = some e ∧ d.Recorded e := by
  obtain ⟨_, closure, e, he, hmarks⟩ := h.moved hd hk
  exact ⟨e, he, (MethodDecl.mobileForm_recorded closure).marks hmarks⟩

/-- A method of the grown type is one that was there, a mobile form or a sibling. -/
theorem cases_of_mem {e : MethodDecl α} (he : e ∈ main ++ siblings) : e ∈ t.methods ∨
    (∃ k d closure, t.methods[k]? = some d ∧ P k ∧ (d.mobileForm client t.fullName closure).Marks e) ∨
    ∃ k d, t.methods[k]? = some d ∧ P k ∧ e = d.relaySibling (d.callSite client t.fullName) := by
  rcases List.mem_append.mp he with he | he
  · obtain ⟨k, hk⟩ := List.mem_iff_getElem?.mp he
    have hlt : k < t.methods.length := h.length ▸ (List.getElem?_eq_some_iff.mp hk).1
    have hd : t.methods[k]? = some t.methods[k] := List.getElem?_eq_getElem hlt
    by_cases hP : P k
    · obtain ⟨_, closure, f, hf, hmarks⟩ := h.moved hd hP
      obtain rfl := Option.some.inj (hf.symm.trans hk)
      exact .inr (.inl ⟨k, _, closure, hd, hP, hmarks⟩)
    · have hsame := Option.some.inj ((h.kept hd hP).symm.trans hk)
      exact .inl (hsame ▸ List.getElem_mem hlt)
  · obtain ⟨k, d, hd, hP, hsibling⟩ := h.origin e he
    exact .inr (.inr ⟨k, d, hd, hP, (MethodDecl.sibling?_eq_some hsibling).2⟩)

/-- Methods keep their signatures. -/
theorem signatures : main.map (fun e => (e.name, e.paramTypes)) = t.methods.map fun d => (d.name, d.paramTypes) := by
  apply List.ext_getElem?
  intro k
  rw [List.getElem?_map, List.getElem?_map]
  cases hd : t.methods[k]? with
  | none =>
    have hle : main.length ≤ k := h.length ▸ List.getElem?_eq_none_iff.mp hd
    rw [List.getElem?_eq_none_iff.mpr hle]
  | some d =>
    obtain ⟨e, he, hname, hparams, _⟩ := h.declared hd
    simp [he, hname, MethodDecl.paramTypes, hparams]

/-- A method is found by its signature in whatever form it stands there. -/
theorem method?_main (hsignatures : (t.methods.map fun d => (d.name, d.paramTypes)).Nodup) {e : MethodDecl α}
    (he : e ∈ main) : ({ t with methods := main ++ siblings } : TypeDecl α).method? e.name e.paramTypes = some e := by
  have hmain : ({ t with methods := main } : TypeDecl α).method? e.name e.paramTypes = some e :=
    TypeDecl.method?_of_mem (t := { t with methods := main }) (h.signatures ▸ hsignatures) he
  unfold TypeDecl.method? at hmain ⊢
  rw [List.find?_append, hmain]
  rfl

theorem method?_sibling {s : MethodDecl α} (hs : s ∈ siblings) :
    ({ t with methods := main ++ siblings } : TypeDecl α).method? s.name s.paramTypes = some s :=
  TypeDecl.method?_sibling rfl h.distinct hs (h.new_main hs)

theorem methodsNamed_sibling {s : MethodDecl α} (hs : s ∈ siblings) :
    ({ t with methods := main ++ siblings } : TypeDecl α).methodsNamed s.name = [s] := by
  have hmain : main.filter (fun e => e.name = s.name) = [] := by
    apply List.filter_eq_nil_iff.mpr
    intro e he hname
    exact h.new_main hs e he (of_decide_eq_true hname).symm
  have hsiblings := filter_of_nodup h.distinct hs
  rw [TypeDecl.methodsNamed, List.filter_append, hmain, hsiblings]
  rfl

/-- All dispatches are those of the methods that were made mobile. -/
theorem site_eq (hquiet : ∀ d ∈ t.methods, ∀ site, .dispatch site ∉ d.body) {e : MethodDecl α}
    (he : e ∈ main ++ siblings) {site : DispatchSite} (hsite : .dispatch site ∈ e.body) :
    ∃ k d, t.methods[k]? = some d ∧ P k ∧ site = d.callSite client t.fullName := by
  rcases h.cases_of_mem he with he | ⟨k, d, closure, hd, hP, hmarks⟩ | ⟨k, d, hd, hP, rfl⟩
  · exact absurd hsite (hquiet e he site)
  · have hbody : e.body = (d.mobileForm client t.fullName closure).body := by
      rcases hmarks with rfl | ⟨_, rfl⟩ <;> rfl
    rw [hbody] at hsite
    by_cases hmode : d.manner.mode = .normal
    · rw [MethodDecl.mobileForm_normal hmode] at hsite
      have hfront := dispatch_mem_inFrontOf (hquiet d (List.mem_of_getElem? hd)) hsite
      exact ⟨k, d, hd, hP, DispatchSite.eq_of_mem_normalFront hfront⟩
    · rw [MethodDecl.mobileForm_moved hmode] at hsite
      exact absurd hsite MethodDecl.dispatch_not_mem_stubBody
  · have hfront := dispatch_mem_inFrontOf (hquiet d (List.mem_of_getElem? hd)) hsite
    exact ⟨k, d, hd, hP, DispatchSite.eq_of_mem_relayFront hfront⟩

/-- All records name siblings. -/
theorem relayBody_eq (hunrelayed : ∀ d ∈ t.methods, d.relayBody = none) {e : MethodDecl α} (he : e ∈ main ++ siblings)
    {name : String} (hname : e.relayBody = some name) : ∃ (d s : MethodDecl α), s ∈ siblings ∧
      s = d.relaySibling (d.callSite client t.fullName) ∧ s.name = name ∧ e.params = d.params ∧
      e.body = d.stubBody t.fullName s := by
  rcases h.cases_of_mem he with he | ⟨k, d, closure, hd, hP, hmarks⟩ | ⟨k, d, hd, hP, rfl⟩
  · rw [hunrelayed e he] at hname
    cases hname
  · by_cases hmode : d.manner.mode = .normal
    · have hnone : e.relayBody = d.relayBody := by
        rw [MethodDecl.mobileForm_normal hmode] at hmarks
        rcases hmarks with rfl | ⟨_, rfl⟩ <;> rfl
      rw [hnone, hunrelayed d (List.mem_of_getElem? hd)] at hname
      cases hname
    · obtain ⟨_, hsibling, _⟩ := h.stub hd hP hmode
      rw [MethodDecl.mobileForm_moved hmode] at hmarks
      rcases hmarks with rfl | ⟨_, rfl⟩ <;>
      · cases hname
        exact ⟨d, _, hsibling, rfl, rfl, rfl, rfl⟩
  · cases hname

end TypeDecl.Grown

/-! ## Deployed modules -/

namespace Module.Grown
variable [Literal α] {client : String} {D : Nat → Nat → Prop} {m n : Module α} (h : Grown client D m n)
  (hdistinct : (m.types.map (·.fullName)).Nodup) (hm : m.Immobile)
include h hdistinct hm

/-- A module in which nothing was mobile is linked when some of its methods have been made mobile. -/
theorem linked : n.Linked where
  sites u hu e he site hsite := by
    have hfound := Module.type?_of_mem (h.fullNames ▸ hdistinct) hu
    obtain ⟨i, t, main, siblings, ht, rfl, hgrown⟩ := h.of_mem hu
    have hmem := List.mem_of_getElem? ht
    obtain ⟨k, d, hd, hP, rfl⟩ := hgrown.site_eq (hm.quiet t hmem) he hsite
    obtain ⟨hmovable, _⟩ := hgrown.moved hd hP
    obtain ⟨f, hf, hrecorded⟩ := hgrown.recorded hd hP
    have hmethod := hgrown.method?_main (hm.signatures t hmem) (List.mem_of_getElem? hf)
    rw [hrecorded.name, hrecorded.paramTypes] at hmethod
    have hcount : f.params.length = (d.callSite client t.fullName).paramCount.toNat := by
      rw [hrecorded.params, MethodDecl.callSite_count hmovable]
    exact ⟨f, hfound, hmethod, hrecorded.mobilized, hrecorded.closure, hrecorded.mobility, hcount⟩
  siblings u hu e he name hname := by
    have hfound := Module.type?_of_mem (h.fullNames ▸ hdistinct) hu
    obtain ⟨i, t, main, siblings, ht, rfl, hgrown⟩ := h.of_mem hu
    have hmem := List.mem_of_getElem? ht
    obtain ⟨d, s, hs, hsame, rfl, hparams, hbody⟩ := hgrown.relayBody_eq (hm.unrelayed t hmem) he hname
    have hmarker : s.params = e.params ++ [relayMarker] := by
      rw [hsame, hparams]
      rfl
    have hcalls (r : MethodRef) : .call r ∈ e.body ↔ r = s.reference ⟨none, t.fullName⟩ := by
      rw [hbody, MethodDecl.call_mem_stubBody]
    refine ⟨s, hgrown.methodsNamed_sibling hs, ⟨_, _, hmarker, rfl, rfl, rfl⟩, ⟨_, (hcalls _).mpr rfl⟩, fun r hr => ?_⟩
    rw [(hcalls r).mp hr]
    exact ⟨hfound, hgrown.method?_sibling hs⟩

end Module.Grown

/-! ## Loaded modules -/

section Known
variable [Sketched α] {β : Type} [Sketched β] {site : DispatchSite} {r : MethodRef}

theorem Instruction.shape_eq_dispatch {i : Instruction α} : i.shape = .dispatch site ↔ i = .dispatch site := by
  cases i <;> simp [shape, traverse]

theorem Instruction.shape_eq_call {i : Instruction α} : i.shape = .call r ↔ i = .call r := by
  cases i <;> simp [shape, traverse]

namespace MethodDecl
variable {d : MethodDecl α} {e : MethodDecl β} (h : d.shape = e.shape)
include h

theorem shape_mem_iff (i : Instruction Datum) : i ∈ d.body.map Instruction.shape ↔ i ∈ e.body.map Instruction.shape := by
  have hbody : d.body.map Instruction.shape = e.body.map Instruction.shape := congrArg MethodDecl.body h
  rw [hbody]

theorem dispatch_mem_iff : .dispatch site ∈ d.body ↔ .dispatch site ∈ e.body := by
  simpa [List.mem_map, Instruction.shape_eq_dispatch] using shape_mem_iff h (.dispatch site)

theorem call_mem_iff : .call r ∈ d.body ↔ .call r ∈ e.body := by
  simpa [List.mem_map, Instruction.shape_eq_call] using shape_mem_iff h (.call r)

end MethodDecl

theorem Module.exists_mem_of_shape {m : Module α} {n : Module β} (h : m.shape = n.shape) {t : TypeDecl α}
    (ht : t ∈ m.types) : ∃ u ∈ n.types, t.shape = u.shape := by
  obtain ⟨i, hi⟩ := List.mem_iff_getElem?.mp ht
  obtain ⟨u, hu, hshape⟩ := types_getElem? h hi
  exact ⟨u, List.mem_of_getElem? hu, hshape⟩

theorem TypeDecl.exists_mem_of_shape {t : TypeDecl α} {u : TypeDecl β} (h : t.shape = u.shape) {d : MethodDecl α}
    (hd : d ∈ t.methods) : ∃ e ∈ u.methods, d.shape = e.shape := by
  obtain ⟨k, hk⟩ := List.mem_iff_getElem?.mp hd
  obtain ⟨e, he, hshape⟩ := methods_getElem? h hk
  exact ⟨e, List.mem_of_getElem? he, hshape⟩

theorem TypeDecl.methodsNamed_shape (t : TypeDecl α) (name : String) :
    (t.methodsNamed name).map MethodDecl.shape = t.shape.methodsNamed name := by
  simp only [methodsNamed, shape, List.filter_map]
  rfl

/-- A type that is found in the one module has its counterpart found in the other. -/
theorem Module.type?_of_shape {m : Module α} {n : Module β} (hdistinct : (m.types.map (·.fullName)).Nodup)
    {t : TypeDecl α} (ht : t ∈ m.types) {u : TypeDecl β} (h : t.shape = u.shape) {name : String}
    (hu : n.type? name = some u) : m.type? name = some t := by
  have hname : t.fullName = name := (TypeDecl.fullName_eq h).trans (Module.type?_eq_some hu).2
  exact hname ▸ Module.type?_of_mem hdistinct ht

end Known

section Loaded
variable {n : Module Datum} {code : Module Value} {t : TypeDecl Datum} {u : TypeDecl Value}
  (hdistinct : (code.types.map (·.fullName)).Nodup) (hu : u ∈ code.types) (h : u.shape = t.shape)
include hdistinct hu h

theorem DispatchSite.Means.loaded {site : DispatchSite} {d : MethodDecl Datum} (hd : site.Means n t d) :
    ∃ e, site.Means code u e := by
  obtain ⟨e, he, hshape⟩ := TypeDecl.method?_eq h.symm hd.method
  have hflags : d.flags = e.flags := congrArg MethodDecl.flags hshape
  have hclosure : d.closure = e.closure := congrArg MethodDecl.closure hshape
  have hmobility : d.mobility = e.mobility := congrArg MethodDecl.mobility hshape
  exact ⟨e, Module.type?_of_shape hdistinct hu h hd.owner, he, hflags ▸ hd.mobilized, hclosure ▸ hd.closure,
    hmobility ▸ hd.mobility, (MethodDecl.length_params_eq hshape).symm.trans hd.count⟩

theorem MethodDecl.HandsOn.loaded {d s : MethodDecl Datum} {name : String} (hd : d.HandsOn n t name s)
    {e : MethodDecl Value} (he : e.shape = d.shape) : ∃ s', e.HandsOn code u name s' := by
  have hnamed : (u.methodsNamed name).map MethodDecl.shape = [s.shape] := by
    rw [TypeDecl.methodsNamed_shape, h, ← TypeDecl.methodsNamed_shape, hd.alone]
    rfl
  obtain ⟨s', halone, hshape⟩ := List.map_eq_singleton_iff.mp hnamed
  obtain ⟨given, p, hp, hgiven, htype, hdefault⟩ := hd.marker
  have hparams : s'.params.map ParamDecl.shape = given.map ParamDecl.shape ++ [p.shape] := by
    have hs : s'.params.map ParamDecl.shape = s.params.map ParamDecl.shape := congrArg MethodDecl.params hshape
    rw [hs, hp, List.map_append]
    rfl
  obtain ⟨given', last, hs', hgiven', hlast⟩ := List.map_eq_append_iff.mp hparams
  obtain ⟨p', rfl, hp'⟩ := List.map_eq_singleton_iff.mp hlast
  have hmarker : ∃ given p, s'.params = given ++ [p] ∧ given.map (·.type) = e.paramTypes ∧
      p.type = TypeName.boolean ∧ p.default = some (.bool false) := by
    have htypes : given'.map (·.type) = given.map (·.type) := by
      simpa [ParamDecl.shape, Function.comp_def] using congrArg (List.map ParamDecl.type) hgiven'
    have htype' : p'.type = p.type := congrArg ParamDecl.type hp'
    have hdefault' : p'.default.map Sketched.sketch = p.default.map Sketched.sketch := congrArg ParamDecl.default hp'
    rw [hdefault] at hdefault'
    obtain ⟨v, hv, hsketch⟩ := Option.map_eq_some_iff.mp hdefault'
    refine ⟨given', p', hs', ?_, htype'.trans htype, ?_⟩
    · rw [htypes, hgiven, MethodDecl.paramTypes_eq he]
    · rw [hv, Value.eq_bool_of_sketch hsketch]
  obtain ⟨r, hr⟩ := hd.calls
  refine ⟨s', halone, hmarker, ⟨r, (MethodDecl.call_mem_iff he).mpr hr⟩, fun r hr => ?_⟩
  obtain ⟨howner, hfound⟩ := hd.called r ((MethodDecl.call_mem_iff he).mp hr)
  obtain ⟨f, hf, hsame⟩ := TypeDecl.method?_eq h.symm hfound
  -- the method that is found is the only one of its name
  have hname : f.name = name := by
    have hfs : s.name = f.name := congrArg MethodDecl.name hsame
    have hmem : s ∈ t.methodsNamed name := hd.alone ▸ List.mem_singleton_self s
    exact hfs.symm.trans (of_decide_eq_true (List.mem_filter.mp hmem).2)
  have hmem : f ∈ u.methodsNamed name :=
    List.mem_filter.mpr ⟨(TypeDecl.method?_eq_some hf).1, decide_eq_true hname⟩
  rw [halone] at hmem
  exact ⟨Module.type?_of_shape hdistinct hu h howner, List.mem_singleton.mp hmem ▸ hf⟩

end Loaded

/-- A linked module stays linked when it is loaded. -/
theorem Module.Linked.loaded {n : Module Datum} (hn : n.Linked) {code : Module Value} (h : code.shape = n.shape)
    (hdistinct : (code.types.map (·.fullName)).Nodup) : code.Linked where
  sites u hu e he site hsite := by
    obtain ⟨t, ht, hshape⟩ := Module.exists_mem_of_shape h hu
    obtain ⟨d, hd, hde⟩ := TypeDecl.exists_mem_of_shape hshape he
    obtain ⟨f, hf⟩ := hn.sites t ht d hd site ((MethodDecl.dispatch_mem_iff hde).mp hsite)
    exact hf.loaded hdistinct hu hshape
  siblings u hu e he name hname := by
    obtain ⟨t, ht, hshape⟩ := Module.exists_mem_of_shape h hu
    obtain ⟨d, hd, hde⟩ := TypeDecl.exists_mem_of_shape hshape he
    have hrelay : e.relayBody = d.relayBody := congrArg MethodDecl.relayBody hde
    obtain ⟨s, hs⟩ := hn.siblings t ht d hd name (hrelay.symm.trans hname)
    exact hs.loaded hdistinct hu hshape hde

/-! ## Lookups -/

/-- Where a linked module is loaded, the method of each of its dispatches is found in it. -/
theorem Module.Linked.resolveMethod {n : Module Datum} (hn : n.Linked) {ω : Type} {host : Host ω} {s : State ω}
    {l : LoadedModule} (hs : s.domain.Has n l) {site : DispatchSite} (hsite : l.code.Dispatches site) :
    ∃ target, host.resolveMethod site.method s = some (.ok target, s) ∧ target.module = l ∧
      target.decl.closure.isSome = true ∧ target.decl.params.length = site.paramCount.toNat := by
  obtain ⟨u, hu, e, he, hdispatch⟩ := hsite
  obtain ⟨d, hd⟩ := (hn.loaded hs.shape hs.distinct).sites u hu e he site hdispatch
  obtain ⟨hmem, hname⟩ := Module.type?_eq_some hd.owner
  have htype : s.domain.type? site.method.owner.fullName = some ⟨l, u⟩ := hname ▸ hs.types u hu
  refine ⟨⟨l, u, d⟩, ?_, rfl, hd.closure, hd.count⟩
  rw [Host.resolveMethod, Run.bind_apply, Host.resolveType_found htype]
  simp only [TypeHandle.method?, hd.method, Option.map_some]
  rfl

/-- What is meant by a call is a method of the type. -/
theorem Domain.meant?_eq_some {d : Domain} {owner : TypeHandle} {type method : String} {args : List Value}
    {asked : MethodHandle} (h : d.meant? owner type method args = some asked) :
    asked.decl ∈ owner.decl.methods ∧ asked.module = owner.module ∧ asked.owner = owner.decl := by
  simp only [meant?, Option.bind_eq_bind, Option.bind_eq_some_iff] at h
  obtain ⟨_, _, o, _, h⟩ := h
  obtain ⟨e, he, rfl⟩ := Option.map_eq_some_iff.mp h
  exact ⟨(TypeDecl.method?_eq_some he).1, rfl, rfl⟩

/-- A server that is asked for a method changes nothing but its heap. -/
theorem Server.ask_eq_ok {r : Request Datum} {host : Host Storage} {asked : MethodHandle} {args : List Value}
    {nonLocals : List (Variable Value)} {s s' : Server} {owner : TypeHandle}
    (htype : s.domain.type? r.type = some owner) (h : ask r host s = some (.ok (asked, args, nonLocals), s')) :
    asked.decl ∈ owner.decl.methods ∧ asked.module = owner.module ∧ asked.owner = owner.decl ∧
      ∃ heap, s' = s.withHeap heap := by
  obtain ⟨_, heap, _, hasks⟩ := ask_eq r host htype
  rw [h] at hasks
  split at hasks
  · rename_i found hmeant
    cases hasks
    obtain ⟨hmem, hmodule, howner⟩ := Domain.meant?_eq_some hmeant
    exact ⟨hmem, hmodule, howner, heap, rfl⟩
  · cases hasks

/-- Where a linked module is loaded, the sibling of a method is found that its record names. -/
theorem Module.Linked.entryPoint {n : Module Datum} (hn : n.Linked) {host : Host Storage} {s s' : Server}
    {l : LoadedModule} (hs : s.domain.Has n l) {u : TypeDecl Value} (hu : u ∈ l.code.types) {r : Request Datum}
    (hr : r.type = u.fullName) {asked : MethodHandle} {args : List Value} {nonLocals : List (Variable Value)}
    (hask : Server.ask r host s = some (.ok (asked, args, nonLocals), s')) :
    ∃ p, Server.entryPoint r host asked args s' = some (.ok p, s') := by
  have htype : s.domain.type? r.type = some ⟨l, u⟩ := hr ▸ hs.types u hu
  obtain ⟨hmem, hmodule, howner, heap, rfl⟩ := Server.ask_eq_ok htype hask
  have hlinked := hn.loaded hs.shape hs.distinct
  apply Server.entryPoint_succeeds
  · rw [hmodule, howner]
    exact htype
  · intro name hname
    obtain ⟨sibling, hsibling⟩ := hlinked.siblings u hu asked.decl hmem name hname
    obtain ⟨c, hc⟩ := hsibling.calls
    obtain ⟨_, hfound⟩ := hsibling.called c hc
    have hsignature := TypeDecl.method?_eq_some hfound
    have hmarked : sibling.paramTypes = asked.decl.paramTypes ++ [TypeName.boolean] := by
      obtain ⟨given, p, hparams, hgiven, hp, _⟩ := hsibling.marker
      rw [MethodDecl.paramTypes, hparams, List.map_append, hgiven, List.map_singleton, hp]
    have hnamed : sibling.name = name := by
      have hin : sibling ∈ u.methodsNamed name := hsibling.alone ▸ List.mem_singleton_self sibling
      exact of_decide_eq_true (List.mem_filter.mp hin).2
    rw [howner, ← hnamed, ← hmarked, hsignature.2.1, hsignature.2.2, hfound]
    exact Option.some_ne_none sibling

/-- A deployed module is linked if nothing in it was mobile before. So where it is loaded, the client finds the
methods of its dispatches, and the server finds the siblings of the methods that it is asked for. -/
theorem Deployment.fully_linked {boundary : Boundary} {digest : DigestAlgorithm} {m n : Module Datum}
    {dependencies : List (Module Datum)} {dep : Deployment} (hvalid : m.Valid) (hm : m.Immobile)
    (hmake : make? boundary digest m dependencies = .ok (some dep)) (hn : n = dep.client ∨ n = dep.server) :
    n.Linked ∧
    (∀ (ω : Type) (host : Host ω) (s : State ω) (l : LoadedModule), s.domain.Has n l → ∀ site, l.code.Dispatches site →
      ∃ target, host.resolveMethod site.method s = some (.ok target, s) ∧ target.module = l ∧
        target.decl.closure.isSome = true ∧ target.decl.params.length = site.paramCount.toNat) ∧
    ∀ (host : Host Storage) (s : Server) (l : LoadedModule), s.domain.Has n l →
      ∀ site, dep.client.Dispatches site → ∀ r : Request Datum, r.type = site.method.owner.fullName →
      ∀ asked args nonLocals s', Server.ask r host s = some (.ok (asked, args, nonLocals), s') →
        ∃ p, Server.entryPoint r host asked args s' = some (.ok p, s') := by
  have hlinked := (grown hmake hn).linked hvalid.distinct hm
  refine ⟨hlinked, fun ω host s l hs site hsite => hlinked.resolveMethod hs hsite, ?_⟩
  intro host s l hs site hsite r hr asked args nonLocals s' hask
  have hclient := (grown hmake (.inl rfl)).linked hvalid.distinct hm
  obtain ⟨t, ht, e, he, hdispatch⟩ := hsite
  obtain ⟨d, hd⟩ := hclient.sites t ht e he site hdispatch
  obtain ⟨hmem, hname⟩ := Module.type?_eq_some hd.owner
  -- both modules and what is loaded of them have the same types
  have hnames : l.code.types.map (·.fullName) = dep.client.types.map (·.fullName) := by
    rw [Module.fullNames_eq hs.shape, (grown hmake hn).fullNames, (grown hmake (.inl rfl)).fullNames]
  have htype : t.fullName ∈ l.code.types.map (·.fullName) := hnames ▸ List.mem_map_of_mem ht
  obtain ⟨u, hu, hsame⟩ := List.mem_map.mp htype
  exact hlinked.entryPoint hs hu (hr.trans (hname.symm.trans hsame.symm)) hask

theorem gauge_immobile : gauge.Immobile where
  quiet := by simp [gauge]
  unrelayed := by simp [gauge]
  signatures := by decide

/-- The dispatch of the setter. -/
def setSite : DispatchSite where
  client := ⟨none, defaultClientType⟩
  mode := .replay
  onMainThread := false
  method := ⟨⟨none, "Ops.Gauge"⟩, "Set", [TypeName.int32]⟩
  paramCount := 1

/-- The setter of the gauge and its sibling are linked, and the client finds the setter. -/
theorem gauge_linked : ∃ dep l d target, gauge.validate = .ok () ∧
    Deployment.make? {} .sha1 gauge [] = .ok (some dep) ∧ dep.client.Linked ∧ dep.server.Linked ∧
    Domain.register { hostName := "client" } dep.client [] none = .ok (l, d) ∧ l.code.Dispatches setSite ∧
    idle.host.resolveMethod setSite.method (⟨d, ()⟩ : State Unit) = some (.ok target, ⟨d, ()⟩) ∧
    target.decl.closure.isSome = true := by
  have hmade : ∃ dep l d, Deployment.make? {} .sha1 gauge [] = .ok (some dep) ∧
      Domain.register { hostName := "client" } dep.client [] none = .ok (l, d) ∧ l.code.Dispatches setSite := by
    refine ⟨_, _, _, rfl, rfl, _, List.mem_cons_self, _, List.mem_of_getElem? (i := 2) rfl, ?_⟩
    exact List.mem_of_getElem? (i := 2) rfl
  obtain ⟨dep, l, d, hmake, hregister, hsite⟩ := hmade
  have hvalid : gauge.validate = .ok () := rfl
  have hgauge := Module.validate_eq_ok.mp hvalid
  have hserver := Deployment.fully_linked hgauge gauge_immobile hmake (.inr rfl)
  obtain ⟨hlinked, hfinds, _⟩ := Deployment.fully_linked hgauge gauge_immobile hmake (.inl rfl)
  have hdistinct : (dep.client.types.map (·.fullName)).Nodup :=
    (Deployment.grown hmake (.inl rfl)).fullNames ▸ hgauge.distinct
  have hnew : Domain.module? { hostName := "client" } dep.client.name = none := rfl
  obtain ⟨target, hfound, _, hclosure, _⟩ :=
    hfinds Unit idle.host ⟨d, ()⟩ l (.of_register hnew hdistinct hregister) setSite hsite
  exact ⟨dep, l, d, target, hvalid, hmake, hlinked, hserver.1, hregister, hsite, hfound, hclosure⟩

end MobileCode
